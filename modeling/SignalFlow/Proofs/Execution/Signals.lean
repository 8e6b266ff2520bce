import SignalFlow.Proofs.Execution.Report
import SignalFlow.Proofs.Graph.Draining
import SignalFlow.Proofs.Plan.Kinds
import SignalFlow.Proofs.Validation.Parameters

/-!
What signals carry outside. Every signal is that of an action node, and what it says comes from the
parameters of that node. The catalog answers for those that the kind of the node declares; an action
reads some that its kind does not declare, and those are as the author left them.
-/

namespace SignalFlow

namespace Catalog

def size : Parameter :=
  { name := "size", type := .number, required := true, default := some (real 100), min := some 0 }

def riskLevel : Parameter :=
  { name := "risk_level", type := .string, default := some (.str "medium"), allowed := riskLevels }

def message : Parameter :=
  { name := "message", type := .string, default := some (.str "Alert") }

def level : Parameter :=
  { name := "level", type := .string, default := some (.str "info"), allowed := alertLevels }

end Catalog

namespace ActionKind

def nodeType : ActionKind → String
  | .buy           => "buy_signal"
  | .sell          => "sell_signal"
  | .closePosition => "close_position"
  | .alert         => "alert_action"
  | .emergencyExit => "emergency_exit"

-- What the catalog declares for an action of the kind.
def parameters : ActionKind → List Parameter
  | .buy | .sell    => [Catalog.size, Catalog.confidence, Catalog.riskLevel]
  | .closePosition  => [Catalog.confidence]
  | .alert          => [Catalog.message, Catalog.level]
  | .emergencyExit  => []

theorem parameters_eq (kind : ActionKind) :
    (Catalog.find? kind.nodeType).elim [] Definition.parameters = kind.parameters := by
  cases kind <;> rfl

theorem nodeType_eq {nodeType : String} {kind : ActionKind}
    (h : Kind.ofNodeType? nodeType = some (.action kind)) : nodeType = kind.nodeType := by
  have named : ∀ x ∈ Kind.table, x.2 = .action kind → x.1 = kind.nodeType := by
    cases kind <;> decide
  exact named _ (Kind.mem_table_of_ofNodeType? h) rfl

end ActionKind

-- The texts that the catalog allows for the level of an action.
def ActionKind.levels : ActionKind → List String
  | .alert => Catalog.alertLevels
  | _      => Catalog.riskLevels

-- An action reads its confidence whether or not its kind declares it. What is not declared has not
-- been checked; it may happen to be allowed.
def Node.ConfidenceAllowed (n : Node) (kind : ActionKind) : Prop :=
  "confidence" ∈ kind.parameters.map Parameter.name ∨ ∀ x ∈ n.float? "confidence", 0 ≤ x ∧ x ≤ 1

-- The same of the level of risk. Who closes a position reads one and declares none.
def Node.RiskLevelAllowed (n : Node) : ActionKind → Prop
  | .closePosition => ∀ s ∈ n.string? "risk_level", s ∈ Catalog.riskLevels
  | _              => True

-- How the signal of an action stands to what the catalog allows. An order is never of a negative
-- size; for the rest, the catalog is as good as what it declares.
structure Signal.Follows (x : Signal) (n : Node) (kind : ActionKind) : Prop where
  node       : x.node = n.id
  signalType : x.signalType = NodeView.signalType kind
  quantity   : 0 ≤ x.quantity
  confidence : (0 ≤ x.confidence ∧ x.confidence ≤ 1) ↔ n.ConfidenceAllowed kind
  riskLevel  : x.riskLevel ∈ kind.levels ↔ n.RiskLevelAllowed kind

section Parameters

variable {n : Node} {d : Definition} {kind : ActionKind}

theorem Node.Declared.parameters_eq (h : n.Declared d)
    (hk : Kind.ofNodeType? n.nodeType = some (.action kind)) : d.parameters = kind.parameters := by
  have hd : Catalog.find? kind.nodeType = some d :=
    ActionKind.nodeType_eq hk ▸ Node.declared_iff.mp h
  rw [←kind.parameters_eq, hd, Option.elim_some]

variable (h : n.Declared d) (hk : Kind.ofNodeType? n.nodeType = some (.action kind))
  (ha : ∀ p ∈ d.parameters, p.Accepts n.parameters)

include h hk ha

theorem Node.quantity_nonneg : 0 ≤ NodeView.quantity n.hydrate kind := by
  have hp := h.parameters_eq hk
  cases kind
  case buy | sell =>
    have hm : Catalog.size ∈ d.parameters := hp ▸ .head _
    have ⟨x, hx, hmin, _⟩ := h.exists_float hm rfl (ha _ hm) rfl
    have hx : n.hydrate.float? "size" = some x := hx
    simp only [NodeView.quantity, hx, Option.getD_some]
    exact hmin 0 rfl nofun
  case closePosition | alert | emergencyExit =>
    have hz : (0 : Float) ≤ 0 := by decide
    exact hz

theorem Node.confidence_iff :
    let x := (n.hydrate.float? "confidence").getD 1
    (0 ≤ x ∧ x ≤ 1) ↔ n.ConfidenceAllowed kind := by
  have hp := h.parameters_eq hk
  cases kind
  case buy | sell | closePosition =>
    have hm : Catalog.confidence ∈ d.parameters := by simp [hp, ActionKind.parameters]
    have ⟨x, hx, hmin, hmax⟩ := h.exists_float hm rfl (ha _ hm) rfl
    have hx : n.hydrate.float? "confidence" = some x := hx
    rw [hx]
    exact iff_of_true ⟨hmin 0 rfl nofun, hmax 1 rfl nofun⟩ <| .inl (by decide)
  case alert | emergencyExit      =>
    have hd : "confidence" ∉ d.parameters.map Parameter.name := by rw [hp]; decide
    have hf : n.hydrate.float? "confidence" = n.float? "confidence" := by
      rw [float?, h.get?_hydrate_of_not_mem hd, float?]
    rw [hf]
    cases hc : n.float? "confidence"
    case none   => exact iff_of_true (by decide) <| .inr (by simp [hc])
    case some x => simp [ConfidenceAllowed, ←hp, hd, hc]

theorem Node.riskLevel_iff :
    NodeView.riskLevel n.hydrate kind ∈ kind.levels ↔ n.RiskLevelAllowed kind := by
  have hp := h.parameters_eq hk
  cases kind
  case buy | sell    =>
    have hm : Catalog.riskLevel ∈ d.parameters := by simp [hp, ActionKind.parameters]
    obtain ⟨s, hs, hl⟩ := h.exists_string hm rfl (ha _ hm) rfl
    have hs : n.hydrate.string? "risk_level" = some s := hs
    simp only [NodeView.riskLevel, hs, Option.getD_some]
    exact iff_of_true (hl (by decide)) trivial
  case alert         =>
    have hm : Catalog.level ∈ d.parameters := by simp [hp, ActionKind.parameters]
    obtain ⟨s, hs, hl⟩ := h.exists_string hm rfl (ha _ hm) rfl
    have hs : n.hydrate.string? "level" = some s := hs
    rw [NodeView.riskLevel, hs]
    exact iff_of_true (hl (by decide)) trivial
  case emergencyExit =>
    have high : "high" ∈ Catalog.riskLevels := by decide
    exact iff_of_true high trivial
  case closePosition =>
    have hd : "risk_level" ∉ d.parameters.map Parameter.name := by rw [hp]; decide
    have hf : n.hydrate.string? "risk_level" = n.string? "risk_level" := by
      rw [string?, h.get?_hydrate_of_not_mem hd, string?]
    simp only [NodeView.riskLevel, hf]
    cases hc : n.string? "risk_level"
    case none   => exact iff_of_true (by decide) (by simp [RiskLevelAllowed, hc])
    case some s => simp [RiskLevelAllowed, ActionKind.levels, hc]

end Parameters

namespace NodeView

variable {v : NodeView} {s : Surroundings} {kind : Kind} {machine : Option Machine}
  {output : NodeOutput} {x : Signal}

theorem signal_of_verdict {result : Except NodeError Bool} (h : verdict result = .ok output) :
    output.signal = none := by
  cases result <;> cases h
  rfl

-- Only an action gives a signal.
theorem signal_of_run (hr : (v.run s kind machine).1 = .ok output) (hx : output.signal = some x) :
    ∃ action, kind = .action action ∧ x = v.signal s action := by
  have verdict {result} (h : verdict result = .ok output) : x ∈ (none : Option Signal) :=
    signal_of_verdict h ▸ hx
  cases kind
  case dataSource kind  =>
    simp only [run, runSource] at hr
    split at hr <;> cases hr
    cases hx
  case indicator kind   =>
    simp only [run, runIndicator, bind, Except.bind] at hr
    split at hr
    case h_1 => cases hr
    case h_2 => split at hr <;> cases hr <;> cases hx
  case composition kind => cases verdict hr
  case condition kind   =>
    cases kind
    case threshold | range   => cases verdict hr
    case duration | sequence =>
      simp only [run] at hr
      split at hr
      case h_1 => dsimp only at hr; cases verdict hr
      case h_2 => cases hr
  case action kind      =>
    refine ⟨kind, rfl, ?_⟩
    simp only [run, runAction, bind, Except.bind] at hr
    split at hr
    case h_1 => cases hr
    case h_2 =>
      split at hr <;> cases hr <;> cases hx
      rfl

end NodeView

namespace Plan

-- The signal is one that an action node of the plan may give.
def Emits (p : Plan) (x : Signal) : Prop :=
  ∃ n kind v s, p.nodes.get? x.node = some n ∧ n.kind = .action kind ∧ v.node = n.node ∧
    x = NodeView.signal v s kind

-- Nodes know the names under which the plan has them.
def Named (p : Plan) : Prop :=
  ∀ id n, p.nodes.get? id = some n → n.node.id = id

variable {p q : Plan} {x : Signal}

theorem Emits.congr (hb : q.blank = p.blank) (h : q.Emits x) : p.Emits x := by
  have ⟨n, kind, v, s, hn, hk, hv, hx⟩ := h
  have ⟨m, hm, hkind, hnode, _⟩ := exists_alike_of_blank_eq hb hn
  exact ⟨m, kind, v, s, hm, hkind ▸ hk, hv.trans hnode.symm, hx⟩

theorem Named.congr (hb : q.blank = p.blank) (h : p.Named) : q.Named := by
  intro id n hn
  have ⟨m, hm, _, hnode, _⟩ := exists_alike_of_blank_eq hb hn
  exact hnode ▸ h id m hm

theorem emits_turn {r : Progress} {s : Surroundings} {id : String} {n : PlanNode}
    (hid : n.node.id = id) (hn : r.plan.nodes.get? id = some n)
    (hx : (n.enter (r.turn s id n).1).signal? = some x) : r.plan.Emits x := by
  simp only [PlanNode.signal?, PlanNode.enter, Progress.turn] at hx
  split at hx
  case h_1 => cases hx
  case h_2 =>
    cases hr : ((r.view id n).run s n.kind (r.plan.machines.get? id)).1
    case error e   => rw [hr] at hx; cases hx
    case ok output =>
      rw [hr] at hx
      obtain ⟨action, hk, hx⟩ := NodeView.signal_of_run hr hx
      exact ⟨n, action, r.view id n, s, hx ▸ hid ▸ hn, hk, rfl, hx⟩

theorem emits_step {r : Progress} (hp : p.Named) (hb : r.plan.blank = p.blank)
    (h : ∀ x ∈ r.outcome.signals, p.Emits x) (s : Surroundings) (id : String) :
    ∀ x ∈ (r.step s id).1.outcome.signals, p.Emits x := by
  intro x hx
  cases hn : r.plan.nodes.get? id
  case none   =>
    rw [Progress.step_of_get?_eq_none hn] at hx
    exact h x hx
  case some n =>
    rw [Progress.outcome_step hn] at hx
    cases List.mem_append.mp hx
    case inl hx => exact h x hx
    case inr hx =>
      have hx := emits_turn (hp.congr hb id n hn) hn <| Option.mem_toList.mp hx
      exact hx.congr hb

theorem emits_tickAt (hp : p.Named) (hb : q.blank = p.blank) (m : Moment) :
    ∀ o ∈ (q.tickAt m).outcome, ∀ x ∈ o.signals, p.Emits x := by
  have ⟨r, _, ⟨_, hr⟩, _, ho⟩ := exists_of_tickAt m
    (motive := fun r => r.plan.blank = p.blank ∧ ∀ x ∈ r.outcome.signals, p.Emits x)
    ⟨blank_reset.trans hb, by simp⟩
    fun r id hr => ⟨Progress.blank_step.trans hr.left, emits_step hp hr.left hr.right _ id⟩
  intro o hm x hx
  exact hr x (ho o hm ▸ hx)

variable {g m : Graph} {setup : Setup} {services : Services} {strategy symbol : String}

theorem Implements.follows (h : p.Implements m.hydrate) (hw : m.WellFormed) (hx : p.Emits x) :
    ∃ n ∈ m.nodes, ∃ kind,
      Kind.ofNodeType? n.nodeType = some (.action kind) ∧ x.Follows n kind := by
  have ⟨pn, kind, v, s, hn, hk, hv, hx⟩ := hx
  have hl := h.linked.links _ pn hn
  have ⟨n, hm, hh⟩ := List.mem_map.mp hl.mem
  have hk : Kind.ofNodeType? n.nodeType = some (.action kind) := by
    rw [←hk, ←hl.kind, ←hh, Node.hydrate_nodeType]
  have ⟨d, hd⟩ := hw.known n hm
  have ha := hw.parameters n hm d hd
  have hv : v.node = n.hydrate := hv.trans hh.symm
  refine ⟨n, hm, kind, hk, ?_⟩
  constructor
  case node       => rw [hx, NodeView.signal, hv, Node.hydrate_id]
  case signalType => rw [hx, NodeView.signal]
  case quantity   => rw [hx, NodeView.signal, hv]; exact Node.quantity_nonneg hd hk ha
  case confidence => rw [hx, NodeView.signal, hv]; exact Node.confidence_iff hd hk ha
  case riskLevel  => rw [hx, NodeView.signal, hv]; exact Node.riskLevel_iff hd hk ha

end Plan

namespace Graph

-- To leave the market when the price is above a hundred, at a risk that is on none of the levels.
-- Nothing is found to be wrong with it, since the action declares no level of risk.
def flatten : Graph where
  name  := "flatten"
  nodes := breakout.nodes.dropLast ++ [
    { id := "flat", nodeType := "close_position",
      parameters := Dict.empty.insert "risk_level" (.str "extreme") }]
  edges := breakout.edges.dropLast ++ [⟨"above", "result", "flat", "trigger"⟩]

theorem wellFormed_flatten : flatten.WellFormed := by
  apply wellFormed_of_rank fun id => ["price", "above", "flat"].idxOf id
  case nonempty   => decide
  case resolved   => unfold Resolved; decide
  case ascend     => decide
  case structural => decide
  case nodes      => decide +kernel
  case edges      => decide

theorem order_flatten : flatten.wiring.order = [0, 1, 2] :=
  flatten.wiring.order_eq_iterate_step.trans <| by decide

theorem supported_flatten : flatten.Supported :=
  fun _ hv => by cases hv

theorem emits_flatten :
    ∃ p, (flatten.compile {} {} "flatten" "BTC").1 = .ok p ∧
      ∃ t ∈ p.run [.noon none], ∃ o ∈ t.outcome, ∃ x ∈ o.signals, x.riskLevel = "extreme" := by
  rw [compile_of_wellFormed supported_flatten wellFormed_flatten]
  simp only [Compile.skeleton, order_hydrate_stamp wellFormed_flatten, order_flatten, bind,
    Except.bind]
  exact ⟨_, rfl, by decide +kernel⟩

end Graph

namespace Plan

variable {p : Plan} {g m : Graph} {setup : Setup} {services : Services} {strategy symbol : String}

-- Every signal of a compiled plan is that of an action of its graph, and it says what the catalog
-- allows exactly if the action reads nothing undeclared that is not allowed.
theorem follows_of_compile (hm : setup.registry.migrate g none = .ok m)
    (hc : (g.compile setup services strategy symbol).1 = .ok p) (moments : List Moment) :
    ∀ t ∈ p.run moments, ∀ o ∈ t.outcome, ∀ x ∈ o.signals, ∃ n ∈ m.nodes, ∃ kind,
      Kind.ofNodeType? n.nodeType = some (.action kind) ∧ x.Follows n kind := by
  have ⟨hw, hi⟩ := Graph.implements_of_compile hm hc
  intro t ht o ho x hx
  have ⟨q, moment, hb, ht⟩ := exists_of_mem_run (motive := fun q => q.blank = p.blank) rfl
    (fun q m hq => (blank_tickAt q m).trans hq) ht
  rw [ht] at ho
  exact hi.follows (Graph.wellFormed_hydrate_iff.mp hw) <|
    emits_tickAt hi.linked.id hb moment o ho x hx

theorem follows_flatten :
    ∃ p, (Graph.flatten.compile {} {} "flatten" "BTC").1 = .ok p ∧
      ∃ t ∈ p.run [.noon none], ∃ o ∈ t.outcome, ∃ x ∈ o.signals, ∃ n ∈ Graph.flatten.nodes,
        x.Follows n .closePosition := by
  have ⟨p, hc, t, ht, o, ho, x, hx, _⟩ := Graph.emits_flatten
  have ⟨n, hn, kind, hk, hf⟩ :=
    follows_of_compile (Registry.migrate_new Graph.supported_flatten) hc [.noon none] t ht o ho x hx
  have kinds : ∀ n ∈ Graph.flatten.nodes, ∀ k ∈ Kind.ofNodeType? n.nodeType,
      k = .dataSource .price ∨ k = .condition .threshold ∨ k = .action .closePosition := by
    decide
  have hk : kind = .closePosition := by simpa using kinds n hn _ hk
  exact ⟨p, hc, t, ht, o, ho, x, hx, n, hn, hk ▸ hf⟩

theorem exists_riskLevel_not_allowed :
    ∃ p, (Graph.flatten.compile {} {} "flatten" "BTC").1 = .ok p ∧
      ∃ t ∈ p.run [.noon none], ∃ o ∈ t.outcome, ∃ x ∈ o.signals,
        x.riskLevel ∉ Catalog.riskLevels ∧ x.riskLevel ∉ Catalog.alertLevels := by
  have ⟨p, hc, t, ht, o, ho, x, hx, hl⟩ := Graph.emits_flatten
  exact ⟨p, hc, t, ht, o, ho, x, hx, hl ▸ by decide, hl ▸ by decide⟩

end Plan

end SignalFlow
