import SignalFlow.Proofs.Catalog.Integers
import SignalFlow.Proofs.Execution.Storage
import SignalFlow.Proofs.Plan.Causal
import SignalFlow.Proofs.Plan.Kinds
import SignalFlow.Proofs.Plan.Requests
import SignalFlow.Proofs.Validation.Parameters

/-!
The wiring of a plan. Links between nodes, routes, machines and series are put together in passes of
their own, and all of them are what the edges and the nodes of the graph say. In particular no edge
gets lost on the way to the routes, as every edge leads into a port that has one.
-/

namespace SignalFlow

open Validation (ids distinct)

-- The elements of a list, each of them once and in the order in which they first occur.
structure Firsts {α : Type} [DecidableEq α] (l firsts : List α) : Prop where
  mem   : ∀ a, a ∈ firsts ↔ a ∈ l
  order : firsts.Pairwise (l.idxOf · < l.idxOf ·)

section Distinct

variable {α : Type} [DecidableEq α] {seen l : List α}

theorem pairwise_idxOf_distinct : (distinct seen l).Pairwise (l.idxOf · < l.idxOf ·) := by
  induction l generalizing seen
  case nil         => exact .nil
  case cons a l hi =>
    -- what is kept of the rest comes one place later in the whole
    have later {seen} (ha : a ∈ seen) :
        (distinct seen l).Pairwise ((a :: l).idxOf · < (a :: l).idxOf ·) := by
      refine hi.imp_of_mem fun hb hc hlt => ?_
      have hb := ne_of_mem_of_not_mem ha (Validation.mem_distinct_iff.mp hb).right
      have hc := ne_of_mem_of_not_mem ha (Validation.mem_distinct_iff.mp hc).right
      rw [List.idxOf_cons_ne _ hb, List.idxOf_cons_ne _ hc]
      exact Nat.succ_lt_succ hlt
    rw [distinct]
    split
    case isTrue ha => exact later ha
    case isFalse   =>
      refine .cons (fun b hb => ?_) <| later (.head _)
      have hb := (Validation.mem_distinct_iff.mp hb).right
      have hb := ne_of_mem_of_not_mem (List.mem_cons_self ..) hb
      rw [List.idxOf_cons_self, List.idxOf_cons_ne _ hb]
      exact Nat.succ_pos _

theorem firsts_distinct (l : List α) : Firsts l (distinct [] l) where
  mem a := by simp [Validation.mem_distinct_iff]
  order := pairwise_idxOf_distinct

-- Nothing else has them so.
theorem Firsts.eq {firsts firsts' : List α} (h : Firsts l firsts) (h' : Firsts l firsts') :
    firsts = firsts' := by
  have nodup {firsts} (h : Firsts l firsts) : firsts.Nodup :=
    h.order.imp fun hlt he => by rw [he] at hlt; exact Nat.lt_irrefl _ hlt
  apply List.Perm.eq_of_pairwise (fun a b _ _ hab hba => ?_) h.order h'.order
  · apply (List.perm_ext_iff_of_nodup (nodup h) (nodup h')).mpr
    exact fun a => (h.mem a).trans (h'.mem a).symm
  · exact absurd (Nat.lt_trans hab hba) (Nat.lt_irrefl _)

end Distinct

-- The output ports at the other ends of the edges into a port, edge by edge.
def Graph.refsInto (g : Graph) (id port : String) : List PortRef :=
  (g.edges.filter fun e => e.targetNode = id ∧ e.targetPort = port).map
    fun e => ⟨e.sourceNode, e.sourcePort⟩

theorem Compile.sources_eq (g : Graph) (id port : String) :
    sources g id port = distinct [] (g.refsInto id port) := by
  simp only [sources, Graph.refsInto, Bool.decide_and, Bool.beq_eq_decide_eq]

-- The type of the nodes that have such a machine.
def MachineKind.nodeType : MachineKind → String
  | .duration => "duration_condition"
  | .sequence => "sequence_condition"

namespace Plan

-- The node reads the series of its kind and its period, which is an integer within bounds.
def Reads (p : Plan) (n : PlanNode) (kind : IndicatorKind) : Prop :=
  ∃ v k, n.node.parameters.get? "period" = some (.num v) ∧ v.Equals k ∧ 1 ≤ k ∧ k ≤ 500 ∧
    n.indicatorKey = some (.of p.symbol kind.name k)

-- Every indicator has been told the series that its parameters name.
def Keyed (p : Plan) : Prop :=
  ∀ id n kind, p.nodes.get? id = some n → n.kind = .indicator kind →
    n.indicatorKey = some (n.node.series p.symbol kind)

theorem Keyed.congr {p q : Plan} (h : p.Keyed) (hb : q.blank = p.blank) : q.Keyed := by
  intro id n kind hn hk
  have ⟨n₀, hn₀, he⟩ := exists_get?_of_blank_eq hb hn
  have hkind : n₀.kind = n.kind := (congrArg PlanNode.kind he : n₀.reset.kind = _)
  have hnode : n₀.node = n.node := (congrArg PlanNode.node he : n₀.reset.node = _)
  have hkey : n₀.indicatorKey = n.indicatorKey :=
    (congrArg PlanNode.indicatorKey he : n₀.reset.indicatorKey = _)
  rw [←hkey, h id n₀ kind hn₀ (hkind.trans hk), hnode, symbol_eq_of_blank_eq hb]

-- The plan has the nodes of the graph, and is wired along its edges and nowhere else.
structure Wired (p : Plan) (g : Graph) : Prop where
  nodes        : ∀ id, (∃ n, p.nodes.get? id = some n) ↔ id ∈ ids g
  node         : ∀ id n, p.nodes.get? id = some n → n.node ∈ g.nodes ∧ n.node.id = id
  dependencies : ∀ u v, (∃ n, p.nodes.get? v = some n ∧ u ∈ n.dependencies.keys) ↔ g.Feeds u v
  dependents   : ∀ u v, (∃ n, p.nodes.get? u = some n ∧ v ∈ n.dependents.keys) ↔ g.Feeds u v
  routed       : ∀ id, (∃ routes, p.routes.get? id = some routes) ↔
    ∃ n ∈ g.nodes, n.id = id ∧ Catalog.inputPorts n.nodeType ≠ []
  routes       : ∀ n ∈ g.nodes, ∀ routes, p.routes.get? n.id = some routes →
    routes.map Route.port = (Catalog.inputPorts n.nodeType).map Port.name ∧
      ∀ r ∈ routes, Firsts (g.refsInto n.id r.port) r.sources
  complete     : ∀ id n, p.nodes.get? id = some n → ∀ u, u ∈ n.dependencies.keys ↔
    ∃ route ∈ (p.routes.get? id).getD [], ∃ source ∈ route.sources, source.node = u
  machines     : ∀ id kind, (∃ m, p.machines.get? id = some m ∧ m.kind = kind) ↔
    ∃ n ∈ g.nodes, n.id = id ∧ n.nodeType = kind.nodeType
  indicators   : ∀ id n, p.nodes.get? id = some n → ∀ kind : IndicatorKind,
    n.node.nodeType = kind.name → p.Reads n kind
  others       : ∀ id n, p.nodes.get? id = some n →
    (∀ kind : IndicatorKind, n.node.nodeType ≠ kind.name) → n.indicatorKey = none

namespace Implements

variable {p : Plan} {g : Graph} {id : String} {n : PlanNode}

theorem exists_dependencies_iff (h : p.Implements g) (hw : g.WellFormed) {u v : String} :
    (∃ n, p.nodes.get? v = some n ∧ u ∈ n.dependencies.keys) ↔ g.Feeds u v := by
  constructor
  case mp  => exact fun ⟨n, hn, hu⟩ => (h.mem_dependencies_iff hn).mp hu
  case mpr =>
    intro hf
    have ⟨e, he, _, ht⟩ := hf
    have ⟨n, hn⟩ := h.exists_get?_iff.mpr (hw.resolved e he).right
    exact ⟨n, ht ▸ hn, (h.mem_dependencies_iff <| ht ▸ hn).mpr hf⟩

theorem exists_dependents_iff (h : p.Implements g) (hw : g.WellFormed) {u v : String} :
    (∃ n, p.nodes.get? u = some n ∧ v ∈ n.dependents.keys) ↔ g.Feeds u v := by
  have mem {n} (hn : p.nodes.get? u = some n) : v ∈ n.dependents.keys ↔ g.Feeds u v := by
    rw [(h.linked.links u n hn).dependents, h.linked.id u n hn]
    rfl
  constructor
  case mp  => exact fun ⟨n, hn, hv⟩ => (mem hn).mp hv
  case mpr =>
    intro hf
    have ⟨e, he, hs, _⟩ := hf
    have ⟨n, hn⟩ := h.exists_get?_iff.mpr (hw.resolved e he).left
    exact ⟨n, hs ▸ hn, (mem <| hs ▸ hn).mpr hf⟩

theorem get?_routes (h : p.Implements g) (hw : g.WellFormed) {n : Node} (hn : n ∈ g.nodes) :
    p.routes.get? n.id =
      if Catalog.inputPorts n.nodeType = [] then none else some (Compile.routesInto g n) := by
  rw [h.routes, Compile.get?_routes hw.distinct hn, Compile.routesInto]
  cases Catalog.inputPorts n.nodeType <;> rfl

theorem exists_routes_iff (h : p.Implements g) (hw : g.WellFormed) :
    (∃ routes, p.routes.get? id = some routes) ↔
      ∃ n ∈ g.nodes, n.id = id ∧ Catalog.inputPorts n.nodeType ≠ [] := by
  constructor
  case mpr =>
    intro ⟨n, hn, hid, hp⟩
    exact ⟨_, hid ▸ (h.get?_routes hw hn).trans <| if_neg hp⟩
  case mp =>
    intro ⟨routes, hr⟩
    by_cases hm : id ∈ ids g
    case neg =>
      have hn : (Compile.routes g).get? id = none :=
        Compile.local_routes.get?_foldl_of_not_mem hm
      rw [h.routes, hn] at hr
      cases hr
    case pos =>
      have ⟨n, hn, hid⟩ := List.mem_map.mp hm
      refine ⟨n, hn, hid, fun hp => ?_⟩
      rw [←hid, h.get?_routes hw hn, if_pos hp] at hr
      cases hr

theorem routes_eq (h : p.Implements g) (hw : g.WellFormed) {n : Node} (hn : n ∈ g.nodes)
    {routes : List Route} (hr : p.routes.get? n.id = some routes) :
    routes.map Route.port = (Catalog.inputPorts n.nodeType).map Port.name ∧
      ∀ r ∈ routes, Firsts (g.refsInto n.id r.port) r.sources := by
  rw [h.get?_routes hw hn] at hr
  split at hr
  case isTrue  => cases hr
  case isFalse =>
    cases hr
    constructor
    case right =>
      intro r hr
      have ⟨port, _, he⟩ := List.mem_map.mp hr
      rw [←he, Compile.sources_eq]
      exact firsts_distinct _
    case left  => simp [Compile.routesInto]

-- Whatever feeds a node is a source of a route into it.
theorem complete (h : p.Implements g) (hw : g.WellFormed) (hn : p.nodes.get? id = some n)
    {u : String} : u ∈ n.dependencies.keys ↔
      ∃ route ∈ (p.routes.get? id).getD [], ∃ source ∈ route.sources, source.node = u := by
  constructor
  case mpr =>
    intro ⟨route, hr, source, hs, hu⟩
    exact hu ▸ h.routed hw hn route hr source hs
  case mp =>
    intro hu
    have hl := h.linked.links id n hn
    have ⟨e, he, hs, ht⟩ := (hl.dependencies u).mp hu
    have ⟨output, input, hwires⟩ := hw.wired e he
    have ⟨d, hd⟩ := hw.known n.node hl.mem
    have hp := (Graph.hasPort_iff hw.distinct hl.mem hd).mp (ht ▸ hwires.target)
    have hi : input ∈ Catalog.inputPorts n.node.nodeType := by
      rw [Catalog.inputPorts, Node.declared_iff.mp hd]
      exact Definition.mem_inputs_iff.mpr ⟨hp, hwires.targetPort.right⟩
    have hr := (h.get?_routes hw hl.mem).trans <| if_neg <| List.ne_nil_of_mem hi
    rw [h.linked.id id n hn] at hr
    refine ⟨⟨input.name, Compile.sources g n.node.id input.name⟩, ?_,
      ⟨e.sourceNode, e.sourcePort⟩, ?_, hs⟩
    · rw [hr]
      exact List.mem_map_of_mem hi
    · exact Compile.mem_sources_iff.mpr ⟨e, he, ht, hwires.targetPort.left.symm, rfl⟩

end Implements

end Plan

-- What every step of a construction preserves holds of what is constructed.
theorem Compile.of_foldlM_eq_ok {α β ε : Type} {f : β → α → Except ε β} {motive : β → Prop}
    {l : List α} {b b' : β} (h : l.foldlM f b = .ok b') (init : motive b)
    (step : ∀ b, ∀ a ∈ l, ∀ b', f b a = .ok b' → motive b → motive b') : motive b' := by
  induction l generalizing b
  case nil         => cases h; exact init
  case cons a l hi =>
    rw [List.foldlM_cons] at h
    cases hf : f b a
    case error => rw [hf] at h; cases h
    case ok c  =>
      rw [hf] at h
      exact hi h (step b a (.head _) c hf init) fun b a ha => step b a (.tail _ ha)

-- No node of a plan under construction knows of a series.
def Compile.Unkeyed (d : Dict PlanNode) : Prop :=
  ∀ id n, d.get? id = some n → n.indicatorKey = none

namespace Compile

variable {d d' : Dict PlanNode} {n : Node} {e : Edge}

theorem Unkeyed.addNode (hd : Unkeyed d) (h : Compile.addNode d n = .ok d') : Unkeyed d' := by
  rw [Compile.addNode] at h
  split at h
  case h_1 => cases h
  case h_2 =>
    cases h
    intro id p hp
    rw [Dict.get?_insert] at hp
    split at hp
    case isTrue  => cases hp; rfl
    case isFalse => exact hd id p hp

theorem Unkeyed.addEdge (hd : Unkeyed d) (h : Compile.addEdge d e = .ok d') : Unkeyed d' := by
  rw [Compile.addEdge] at h
  split at h
  case isTrue  => cases h
  case isFalse =>
    split at h
    case isTrue  => cases h
    case isFalse =>
      cases h
      intro id p hp
      rw [Dict.get?_modify, Dict.get?_modify, Option.map_map] at hp
      obtain ⟨q, hq, he⟩ := Option.map_eq_some_iff.mp hp
      rw [←he, ←hd id q hq]
      simp only [Function.comp_apply]
      split <;> split <;> rfl

theorem unkeyed_of_skeleton {strategy symbol : String} {g : Graph} {p : Plan}
    (h : skeleton strategy g symbol = .ok p) : Unkeyed p.nodes := by
  simp only [skeleton, bind, Except.bind] at h
  split at h
  case h_1 => cases h
  case h_2 hn =>
    split at h
    case h_1 => cases h
    case h_2 he =>
      split at h
      case h_1 => cases h
      case h_2 =>
        cases h
        have init : Unkeyed ∅ := fun _ _ hn => by cases hn
        have hn := of_foldlM_eq_ok hn init fun _ _ _ _ h hd => hd.addNode h
        exact of_foldlM_eq_ok he hn fun _ _ _ _ h hd => hd.addEdge h

end Compile

namespace Kind

theorem machineKind?_ofNodeType?_eq_some_iff {nodeType : String} {kind : MachineKind} :
    (ofNodeType? nodeType).bind machineKind? = some kind ↔ nodeType = kind.nodeType := by
  have named : ∀ x ∈ table, x.2.machineKind? = some kind → x.1 = kind.nodeType := by
    cases kind <;> decide
  constructor
  case mpr => rintro rfl; cases kind <;> rfl
  case mp  =>
    intro h
    have ⟨_, hk, h⟩ := Option.bind_eq_some_iff.mp h
    exact named _ (mem_table_of_ofNodeType? hk) h

end Kind

theorem Catalog.exists_indicator (kind : IndicatorKind) :
    ∃ description period, find? kind.name = some (indicator kind.name description period) := by
  cases kind <;> exact ⟨_, _, rfl⟩

namespace Graph

variable {g : Graph} {setup : Setup} {services : Services} {strategy symbol : String} {p : Plan}
  {id : String} {n : PlanNode}

theorem indicatorKey_of_compile (hc : (g.compile setup services strategy symbol).1 = .ok p)
    (hn : p.nodes.get? id = some n) : n.indicatorKey = (p.request? id).map Prod.fst := by
  have hm := ((causal_of_compile hc).mem id).mpr ⟨n, hn⟩
  have ⟨prepared, q, hq, hp⟩ := exists_skeleton_eq_of_compile hc
  rw [hp] at hc
  cases hc
  rw [Compile.order_foldl_equip] at hm
  rw [Compile.get?_nodes_foldl_equip] at hn
  have ⟨m, hs, he⟩ := Option.map_eq_some_iff.mp hn
  rw [if_pos hm] at he
  rw [←he, Compile.keyed, Compile.unkeyed_of_skeleton hq id m hs, Option.or_none,
    Compile.request?_foldl_equip]

theorem keyed_of_compile (hc : (g.compile setup services strategy symbol).1 = .ok p) : p.Keyed := by
  intro id n kind hn hk
  rw [indicatorKey_of_compile hc hn, Plan.request?, hn, Option.bind_some, hk]
  rfl

-- The period of a node that passed its check is counted as it was given.
theorem WellFormed.exists_period (hw : g.WellFormed) {x : Node} (hx : x ∈ g.nodes)
    {kind : IndicatorKind} (hk : x.nodeType = kind.name) :
    ∃ v k, x.hydrate.parameters.get? "period" = some (.num v) ∧ v.Equals k ∧ 1 ≤ k ∧ k ≤ 500 ∧
      x.hydrate.period = k := by
  have ⟨description, period, hd⟩ := Catalog.exists_indicator kind
  have hd : x.Declared (Catalog.indicator kind.name description period) :=
    Node.declared_iff.mpr <| hk ▸ hd
  have ⟨v, hv, ha⟩ := hd.exists_admitted (.head _) rfl <| hw.parameters x hx _ hd _ (.head _)
  have ht := ha.type
  cases v
  case num v =>
    have ⟨k, m, e, heq, hlo, hhi, hb, he⟩ := Number.exists_equals 1 500 (by decide)
      (by decide) (by decide) ht (ha.min 1 rfl _ rfl) (ha.max 500 rfl _ rfl)
    refine ⟨v, k, hv, heq, hlo, hhi, ?_⟩
    have hg : (k : Int) ≤ greatestPeriod := by
      rw [greatestPeriod]
      omega
    rw [Node.period, Node.float?, hv, Option.bind_some, Json.float?, Option.map_some,
      Option.getD_some, countOf_eq hlo hg hb he]
  all_goals cases ht

theorem exists_machine_iff (hc : (g.compile setup services strategy symbol).1 = .ok p)
    {prepared : Graph} (hw : prepared.WellFormed) (hi : p.Implements prepared)
    {kind : MachineKind} :
    (∃ m, p.machines.get? id = some m ∧ m.kind = kind) ↔
      ∃ n ∈ prepared.nodes, n.id = id ∧ n.nodeType = kind.nodeType := by
  rw [←Option.map_eq_some_iff, kinds_of_compile hc]
  constructor
  case mp  =>
    intro h
    have ⟨n, hn, hk⟩ := Option.bind_eq_some_iff.mp h
    have hl := hi.linked.links id n hn
    refine ⟨n.node, hl.mem, hi.linked.id id n hn, ?_⟩
    rwa [←Kind.machineKind?_ofNodeType?_eq_some_iff, hl.kind]
  case mpr =>
    intro ⟨x, hx, hid, ht⟩
    have ⟨n, hn⟩ := hi.linked.present x hx
    have hl := hi.linked.links _ n hn
    have he : n.node = x := eq_of_id_eq hw.distinct hl.mem hx <| hi.linked.id _ n hn
    rw [←Kind.machineKind?_ofNodeType?_eq_some_iff, ←he, hl.kind] at ht
    rwa [Plan.machineKind?, ←hid, hn]

theorem reads_of_compile (hc : (g.compile setup services strategy symbol).1 = .ok p)
    {m : Graph} (hw : m.WellFormed) (hi : p.Implements m.hydrate) (hn : p.nodes.get? id = some n)
    {kind : IndicatorKind} (hk : n.node.nodeType = kind.name) : p.Reads n kind := by
  have hl := hi.linked.links id n hn
  have ⟨x, hx, he⟩ := List.mem_map.mp hl.mem
  have ⟨v, k, hv, heq, hlo, hhi, hp⟩ := hw.exists_period hx <|
    (x.hydrate_nodeType).symm.trans <| he ▸ hk
  refine ⟨v, k, he ▸ hv, heq, hlo, hhi, ?_⟩
  have hkind := Option.some.inj <| hl.kind.symm.trans <| Kind.ofNodeType?_eq_indicator_iff.mpr hk
  simp only [keyed_of_compile hc id n kind hn hkind, Node.series, ←he, hp]

theorem indicatorKey_eq_none_of_compile
    (hc : (g.compile setup services strategy symbol).1 = .ok p) {m : Graph}
    (hi : p.Implements m) (hn : p.nodes.get? id = some n)
    (hk : ∀ kind : IndicatorKind, n.node.nodeType ≠ kind.name) : n.indicatorKey = none := by
  rw [indicatorKey_of_compile hc hn, Plan.request?, hn, Option.bind_some]
  split
  case h_1 kind he =>
    have hn := Kind.ofNodeType?_eq_indicator_iff.mp <| he ▸ (hi.linked.links id n hn).kind
    exact absurd hn (hk kind)
  case h_2 => rfl

theorem wired_of_compile (hc : (g.compile setup services strategy symbol).1 = .ok p) :
    ∃ m, setup.registry.migrate g none = .ok m ∧ p.symbol = symbol ∧ p.Wired m.hydrate ∧
      (setup.registry.hops = [] → p.Wired g.hydrate) := by
  have ⟨m, hm, hw, hi⟩ := exists_implements_of_compile hc
  have hw' := wellFormed_hydrate_iff.mpr hw
  have wired : p.Wired m.hydrate := {
    nodes id           := hi.exists_get?_iff
    node id n hn       := ⟨(hi.linked.links id n hn).mem, hi.linked.id id n hn⟩
    dependencies u v   := hi.exists_dependencies_iff hw'
    dependents u v     := hi.exists_dependents_iff hw'
    routed id          := hi.exists_routes_iff hw'
    routes n hn _      := hi.routes_eq hw' hn
    complete id n hn u := hi.complete hw' hn
    machines id kind   := exists_machine_iff hc hw' hi
    indicators id n hn kind := reads_of_compile hc hw hi hn
    others id n hn hk  := indicatorKey_eq_none_of_compile hc hi hn hk }
  have hs := congrArg StateKey.symbol <| stateKey_of_compile hc ""
  refine ⟨m, hm, hs, wired, fun hr => ?_⟩
  have ⟨_, he⟩ := Registry.exists_stamp_of_migrate hr hm
  rw [he] at wired
  exact ⟨wired.nodes, wired.node, wired.dependencies, wired.dependents, wired.routed, wired.routes,
    wired.complete, wired.machines, wired.indicators, wired.others⟩

-- To buy when a mean of prices is, and stays, above a hundred. One of the edges is there twice.
def trend : Graph where
  name  := "trend"
  nodes := [
    { id := "price", nodeType := "price_source" },
    { id := "mean", nodeType := "sma",
      parameters := Dict.empty.insert "period" (.ofNat 5) },
    { id := "above", nodeType := "threshold_condition",
      parameters := Dict.empty.insert "threshold" (.ofNat 100) },
    { id := "held", nodeType := "duration_condition" },
    { id := "both", nodeType := "and_gate" },
    { id := "buy", nodeType := "buy_signal" }]
  edges := [⟨"price", "price", "mean", "price"⟩, ⟨"mean", "value", "above", "value"⟩,
    ⟨"above", "result", "held", "condition"⟩, ⟨"held", "result", "both", "inputs"⟩,
    ⟨"above", "result", "both", "inputs"⟩, ⟨"held", "result", "both", "inputs"⟩,
    ⟨"both", "result", "buy", "trigger"⟩]

theorem wellFormed_trend : trend.WellFormed := by
  apply wellFormed_of_rank fun id => ["price", "mean", "above", "held", "both", "buy"].idxOf id
  case nonempty   => decide
  case resolved   => unfold Resolved; decide
  case ascend     => decide
  case structural => decide
  case nodes      => decide +kernel
  case edges      => decide +kernel

theorem wired_trend :
    ∃ p, (trend.compile {} {} "trend" "BTC").1 = .ok p ∧ p.Wired trend.hydrate ∧
      (∃ n, p.nodes.get? "mean" = some n ∧ n.indicatorKey = some ⟨"BTC:sma:5"⟩) ∧
      (∃ m, p.machines.get? "held" = some m ∧ m.kind = .duration) ∧
      p.routes.get? "both" = some [⟨"inputs", [⟨"held", "result"⟩, ⟨"above", "result"⟩]⟩] := by
  have ⟨p, hc⟩ := exists_compile (fun v hv => by cases hv) wellFormed_trend {} "trend" "BTC"
  have ⟨_, _, hs, _, hw⟩ := wired_of_compile hc
  have hw := hw rfl
  have mem {x : Node} (hx : x ∈ trend.nodes) : x.hydrate ∈ trend.hydrate.nodes :=
    List.mem_map_of_mem hx
  have mean := mem (.tail _ <| .head _)
  refine ⟨p, hc, hw, ?mean, ?held, ?both⟩
  case mean =>
    have ⟨n, hn⟩ := (hw.nodes "mean").mpr (by decide)
    have hd : (ids trend.hydrate).Nodup := (wellFormed_hydrate_iff.mpr wellFormed_trend).distinct
    have he := eq_of_id_eq hd (hw.node _ n hn).left mean (hw.node _ n hn).right
    have ⟨v, k, hv, hk, _, _, hi⟩ := hw.indicators "mean" n hn .sma (by rw [he]; rfl)
    refine ⟨n, hn, hi.trans ?_⟩
    rw [he] at hv
    cases Option.some.inj hv
    cases hk
    rw [hs]
    rfl
  case held =>
    have held := mem (.tail _ <| .tail _ <| .tail _ <| .head _)
    exact (hw.machines "held" .duration).mpr ⟨_, held, rfl, rfl⟩
  case both =>
    have both := mem (.tail _ <| .tail _ <| .tail _ <| .tail _ <| .head _)
    have ⟨routes, hr⟩ := (hw.routed "both").mpr ⟨_, both, rfl, by decide⟩
    have ⟨hports, hsources⟩ := hw.routes _ both routes hr
    have ⟨route, hroutes, hport⟩ := List.map_eq_singleton_iff.mp hports
    rw [hroutes] at hsources
    have hsources := (hsources route (.head _)).eq <| firsts_distinct _
    rw [hport] at hsources
    rw [hr, hroutes]
    exact congrArg (some [·]) <| congrArg₂ Route.mk hport <| hsources.trans <| by decide

end Graph

end SignalFlow
