import SignalFlow.Proofs.Execution.Signals
import SignalFlow.Proofs.Plan.Wiring
import SignalFlow.Proofs.Schema.Normal

/-!
What nodes go by. A parameter that has to be there, or that has a default, stands at what the author
gave for it, and else at the default of the catalog. Who reads a parameter has a value of its own at
hand in case that there is none. That is of no use, since a plan never gets there.
-/

namespace SignalFlow

-- There has to be a value for the parameter.
def Parameter.Due (p : Parameter) : Prop :=
  p.required ∨ p.default.isSome

instance : DecidablePred Parameter.Due :=
  fun p => inferInstanceAs <| Decidable (p.required ∨ p.default.isSome)

namespace Node

variable {n : Node} {name : String}

-- The value is what the author gave, or else the default of the catalog.
inductive Chooses (n : Node) (name : String) : Json → Prop
  | given {v : Json} (h : n.parameters.get? name = some v) (hn : v ≠ .null) : n.Chooses name v
  | default {v : Json} (h : ¬n.parameters.Gives name) (hd : n.Defaults name v) : n.Chooses name v

-- The same for what is read from the value.
def Sets {α : Type} (n : Node) (name : String) (read : Json → Option α) (a : α) : Prop :=
  ∃ v, n.Chooses name v ∧ read v = some a

theorem Defaults.unique {v w : Json} (hv : n.Defaults name v) (hw : n.Defaults name w) : v = w := by
  have ⟨d, hd, p, hp, hn, hv⟩ := hv
  have ⟨d', hd', q, hq, hn', hw⟩ := hw
  cases hd.unique hd'
  have nodup := Catalog.nodup_parameters d hd.left
  cases List.inj_on_of_nodup_map nodup hp hq <| hn.trans hn'.symm
  exact Option.some.inj <| hv.symm.trans hw

theorem Chooses.unique {v w : Json} (hv : n.Chooses name v) (hw : n.Chooses name w) : v = w := by
  cases hv <;> cases hw
  case given.given h _ h' _     => exact Option.some.inj <| h.symm.trans h'
  case given.default h hn h' _  => exact absurd ⟨v, h, hn⟩ h'
  case default.given h _ h' hn  => exact absurd ⟨w, h', hn⟩ h
  case default.default hd _ hd' => exact hd.unique hd'

theorem Sets.unique {α : Type} {read : Json → Option α} {a b : α} (ha : n.Sets name read a)
    (hb : n.Sets name read b) : a = b := by
  have ⟨v, hv, ha⟩ := ha
  have ⟨w, hw, hb⟩ := hb
  cases hv.unique hw
  exact Option.some.inj <| ha.symm.trans hb

theorem Declared.exists_chosen {d : Definition} {p : Parameter} (h : n.Declared d)
    (hp : p ∈ d.parameters) (hd : p.Due) (ha : p.Accepts n.parameters) :
    ∃ v, n.Chooses p.name v ∧ p.Admits v ∧ n.hydrate.parameters.get? p.name = some v := by
  rw [h.get?_hydrate hp]
  by_cases hg : n.parameters.Gives p.name
  case pos =>
    rw [Parameter.filled_of_gives hg]
    cases ha
    case set v hv ha  => exact ⟨v, .given hv fun hn => Parameter.not_admits_null <| hn ▸ ha, ha, hv⟩
    case unset hu _   =>
      have ⟨v, hv, hn⟩ := hg
      exact absurd (hu v hv) hn
  case neg =>
    have hd : p.default.isSome := by
      cases ha
      case unset default => exact hd.elim default fun hd => hd
      case set v hv ha   =>
        exact absurd ⟨v, hv, fun hn => Parameter.not_admits_null <| hn ▸ ha⟩ hg
    have ⟨v, hv⟩ := Option.isSome_iff_exists.mp hd
    exact ⟨v, .default hg ⟨d, h, p, hp, rfl, hv⟩, Catalog.admits_default d h.left p hp v hv,
      Parameter.filled_of_not_gives hg hv⟩

end Node

namespace ParameterType

variable {v : Json}

theorem exists_float (h : number.Holds v) : ∃ x, v.float? = some x := by
  cases v
  case num n => exact ⟨n.toFloat, rfl⟩
  all_goals cases h

theorem exists_string (h : string.Holds v) : ∃ s, v.string? = some s := by
  cases v
  case str s => exact ⟨s, rfl⟩
  all_goals cases h

theorem exists_bool (h : boolean.Holds v) : ∃ b, v.bool? = some b := by
  cases v
  case bool b => exact ⟨b, rfl⟩
  all_goals cases h

end ParameterType

-- The six ways in which a value may be compared to a threshold.
inductive Comparison where
  | above
  | below
  | atLeast
  | atMost
  | equal
  | unequal

namespace Comparison

def symbol : Comparison → String
  | .above   => ">"
  | .below   => "<"
  | .atLeast => ">="
  | .atMost  => "<="
  | .equal   => "=="
  | .unequal => "!="

def holds (c : Comparison) (value threshold : Float) : Bool :=
  match c with
  | .above   => threshold < value
  | .below   => value < threshold
  | .atLeast => threshold ≤ value
  | .atMost  => value ≤ threshold
  | .equal   => value == threshold
  | .unequal => value != threshold

theorem compare_symbol (c : Comparison) : NodeView.compare c.symbol = c.holds := by
  cases c <;> rfl

theorem exists_symbol_eq : ∀ s ∈ Catalog.comparisonOperators, ∃ c, symbol c = s := by
  intro s hs
  simp only [Catalog.comparisonOperators, List.mem_cons, List.not_mem_nil, or_false] at hs
  rcases hs with rfl | rfl | rfl | rfl | rfl | rfl
  · exact ⟨.above, rfl⟩
  · exact ⟨.below, rfl⟩
  · exact ⟨.atLeast, rfl⟩
  · exact ⟨.atMost, rfl⟩
  · exact ⟨.equal, rfl⟩
  · exact ⟨.unequal, rfl⟩

end Comparison

namespace Kind

-- The type of the nodes that run as a kind.
def nodeType : Kind → String
  | .dataSource .price     => "price_source"
  | .dataSource .volume    => "volume_source"
  | .indicator kind        => kind.name
  | .condition .threshold  => "threshold_condition"
  | .condition .range      => "range_condition"
  | .condition .duration   => "duration_condition"
  | .condition .sequence   => "sequence_condition"
  | .composition .and      => "and_gate"
  | .composition .or       => "or_gate"
  | .composition .weighted => "weighted_gate"
  | .action kind           => kind.nodeType

def parameters (kind : Kind) : List Parameter :=
  (Catalog.find? kind.nodeType).elim [] Definition.parameters

-- There has to be a value of that type under that name.
def Settles (kind : Kind) (name : String) (type : ParameterType) : Prop :=
  ∃ p ∈ kind.parameters, p.name = name ∧ p.type = type ∧ p.Due

instance {kind : Kind} {name : String} : DecidablePred (kind.Settles name) :=
  fun type => inferInstanceAs <|
    Decidable (∃ p ∈ kind.parameters, p.name = name ∧ p.type = type ∧ p.Due)

-- The same of an integer between bounds.
def Counts (kind : Kind) (name : String) (lo hi : Nat) : Prop :=
  ∃ p ∈ kind.parameters, p.name = name ∧ p.type = .integer ∧ p.Due ∧
    p.min = some (Float.ofNat lo) ∧ p.max = some (Float.ofNat hi)

theorem nodeType_eq {nodeType : String} {kind : Kind} (h : ofNodeType? nodeType = some kind) :
    nodeType = kind.nodeType := by
  have named : ∀ x ∈ table, x.1 = x.2.nodeType := by decide
  exact named _ <| mem_table_of_ofNodeType? h

end Kind

-- The node runs as that kind, and its parameters are as the catalog asks for.
structure Node.Fit (n : Node) (kind : Kind) : Prop where
  kind       : Kind.ofNodeType? n.nodeType = some kind
  known      : ∃ d, n.Declared d
  parameters : ∀ d, n.Declared d → ∀ p ∈ d.parameters, p.Accepts n.parameters

namespace Node.Fit

variable {n : Node} {kind : Kind} (h : n.Fit kind)

include h

theorem exists_chosen {p : Parameter} (hp : p ∈ kind.parameters) (hd : p.Due) :
    ∃ v, n.Chooses p.name v ∧ p.Admits v ∧ n.hydrate.parameters.get? p.name = some v := by
  have ⟨d, hk⟩ := h.known
  have hf := Node.declared_iff.mp hk
  rw [Kind.nodeType_eq h.kind] at hf
  rw [Kind.parameters, hf, Option.elim_some] at hp
  exact hk.exists_chosen hp hd <| h.parameters d hk p hp

theorem exists_set {α : Type} {read : Json → Option α} {name : String} {type : ParameterType}
    (hs : kind.Settles name type) (hr : ∀ {v}, type.Holds v → ∃ a, read v = some a) :
    ∃ a, n.Sets name read a ∧ (n.hydrate.parameters.get? name).bind read = some a := by
  obtain ⟨p, hp, rfl, ht, hd⟩ := hs
  have ⟨v, hc, ha, hv⟩ := h.exists_chosen hp hd
  have ⟨a, hr⟩ := hr <| ht ▸ ha.type
  exact ⟨a, ⟨v, hc, hr⟩, by rw [hv, Option.bind_some, hr]⟩

theorem exists_float (name : String) (hs : kind.Settles name .number) :
    ∃ x, n.Sets name Json.float? x ∧ n.hydrate.float? name = some x :=
  h.exists_set hs ParameterType.exists_float

theorem exists_string (name : String) (hs : kind.Settles name .string) :
    ∃ s, n.Sets name Json.string? s ∧ n.hydrate.string? name = some s :=
  h.exists_set hs ParameterType.exists_string

theorem exists_bool (name : String) (hs : kind.Settles name .boolean) :
    ∃ b, n.Sets name Json.bool? b ∧ n.hydrate.bool? name = some b :=
  h.exists_set hs ParameterType.exists_bool

-- What is counted is just the integer that was chosen.
theorem exists_count {name : String} (lo hi : Nat) (hs : kind.Counts name lo hi) (hlo : 0 < lo)
    (hle : lo ≤ hi) (hhi : hi < 2 ^ 53) :
    ∃ x k, n.Chooses name (.num x) ∧ x.Equals k ∧ lo ≤ k ∧ k ≤ hi ∧ ∀ greatest : Int,
      hi ≤ greatest → (n.hydrate.float? name).map (countOf greatest) = some k := by
  obtain ⟨p, hp, rfl, ht, hd, hmin, hmax⟩ := hs
  have ⟨v, hc, ha, hv⟩ := h.exists_chosen hp hd
  have ht : ParameterType.integer.Holds v := ht ▸ ha.type
  cases v
  case num x =>
    have ⟨k, m, e, heq, hl, hu, hb, he⟩ := Number.exists_equals lo hi hlo hle hhi ht
      (ha.min _ hmin _ rfl) (ha.max _ hmax _ rfl)
    refine ⟨x, k, hc, heq, hl, hu, fun greatest hg => ?_⟩
    rw [Node.float?, hv, Option.bind_some, Json.float?, Option.map_some,
      countOf_eq (by omega) (by omega) hb he]
  all_goals cases ht

end Node.Fit

-- Whatever is chosen to compare with is one of the six.
theorem Node.Fit.exists_comparison {n : Node} (h : n.Fit (.condition .threshold)) :
    ∃ c : Comparison, n.Sets "operator" Json.string? c.symbol ∧
      n.hydrate.string? "operator" = some c.symbol := by
  have ⟨v, hc, ha, hv⟩ := h.exists_chosen (.head _) (.inl rfl)
  have ⟨s, hs, hallowed⟩ := ha.exists_string rfl
  have ⟨c, hsymbol⟩ := Comparison.exists_symbol_eq s <| hallowed (by decide)
  have hs : v.string? = some c.symbol := hs.trans <| congrArg some hsymbol.symm
  exact ⟨c, ⟨v, hc, hs⟩, (congrArg (Option.bind · Json.string?) hv).trans hs⟩

-- What the author of a node chose is what the node is run by, whatever tick is under way. A kind
-- that comes with nothing here has no parameter for which there has to be a value.
inductive PlanNode.Heeds (n : PlanNode) (author : Node) (symbol : String) : Kind → Prop
  | source {kind : SourceKind} : n.Heeds author symbol (.dataSource kind)
  | indicator {kind : IndicatorKind} {x : Number} {k : Nat}
      (period : author.Chooses "period" (.num x)) (exact : x.Equals k) (bounds : 1 ≤ k ∧ k ≤ 500)
      (count : n.node.period = k) (key : n.indicatorKey = some (.of symbol kind.name k))
      (series : ∀ (r : Progress) id, (r.view id n).series kind = .of symbol kind.name k) :
      n.Heeds author symbol (.indicator kind)
  | threshold {c : Comparison} {x : Float}
      (operator : author.Sets "operator" Json.string? c.symbol)
      (threshold : author.Sets "threshold" Json.float? x)
      (run : ∀ (r : Progress) id, (r.view id n).runThreshold =
        ((r.view id n).number "value").map (c.holds · x)) :
      n.Heeds author symbol (.condition .threshold)
  | range {lo hi : Float}
      (lower : author.Sets "lower" Json.float? lo) (upper : author.Sets "upper" Json.float? hi)
      (run : ∀ (r : Progress) id, (r.view id n).runRange =
        ((r.view id n).number "value").map fun x => decide (lo ≤ x) && decide (x ≤ hi)) :
      n.Heeds author symbol (.condition .range)
  | duration {seconds : Float} {reset : Bool}
      (duration : author.Sets "duration_seconds" Json.float? seconds)
      (resetOnFalse : author.Sets "reset_on_false" Json.bool? reset)
      (rule : Hold.Rule.ofNode n.node = ⟨.ofFloat seconds, reset⟩) :
      n.Heeds author symbol (.condition .duration)
  | sequence {x : Number} {k : Nat} {gap : Float}
      (required : author.Chooses "required_events" (.num x)) (exact : x.Equals k)
      (bounds : 1 ≤ k ∧ k ≤ 1000) (maxGap : author.Sets "max_gap_seconds" Json.float? gap)
      (rule : Sequence.Rule.ofNode n.node = ⟨k, .ofFloat gap⟩) :
      n.Heeds author symbol (.condition .sequence)
  | gate {kind : CompositionKind} (h : kind = .and ∨ kind = .or) :
      n.Heeds author symbol (.composition kind)
  | weighted {x : Float} (threshold : author.Sets "threshold" Json.float? x)
      (run : ∀ (r : Progress) id, (r.view id n).runComposition .weighted =
        ((r.view id n).booleans "inputs").map
          (NodeView.gate .weighted (NodeView.weights n.node) x)) :
      n.Heeds author symbol (.composition .weighted)
  | order {kind : ActionKind} {size confidence : Float} {risk : String}
      (h : kind = .buy ∨ kind = .sell) (quantity : author.Sets "size" Json.float? size)
      (certainty : author.Sets "confidence" Json.float? confidence)
      (riskLevel : author.Sets "risk_level" Json.string? risk)
      (signal : ∀ (r : Progress) id s, let x := (r.view id n).signal s kind
        x.quantity = size ∧ x.confidence = confidence ∧ x.riskLevel = risk) :
      n.Heeds author symbol (.action kind)
  | close {confidence : Float} (certainty : author.Sets "confidence" Json.float? confidence)
      (signal : ∀ (r : Progress) id s,
        ((r.view id n).signal s .closePosition).confidence = confidence) :
      n.Heeds author symbol (.action .closePosition)
  | alert {text level : String} (message : author.Sets "message" Json.string? text)
      (riskLevel : author.Sets "level" Json.string? level)
      (signal : ∀ (r : Progress) id s, let x := (r.view id n).signal s .alert
        x.message = some text ∧ x.riskLevel = level) :
      n.Heeds author symbol (.action .alert)
  | exit : n.Heeds author symbol (.action .emergencyExit)

-- The node is what became of the author's, which is run by what was chosen. Every value that there
-- has to be is there, and it is the one that was chosen.
structure PlanNode.Serves (n : PlanNode) (author : Node) (symbol : String) : Prop where
  kind   : Kind.ofNodeType? author.nodeType = some n.kind
  values : ∀ p ∈ n.kind.parameters, p.Due →
    ∃ v, author.Chooses p.name v ∧ p.Admits v ∧ n.node.parameters.get? p.name = some v
  run    : n.Heeds author symbol n.kind

def Plan.Heeds (p : Plan) (g : Graph) : Prop :=
  ∀ id n, p.nodes.get? id = some n → ∃ author ∈ g.nodes, author.id = id ∧ n.Serves author p.symbol

namespace PlanNode

variable {n : PlanNode} {author : Node} {symbol : String} (hn : n.node = author.hydrate)

include hn

theorem heeds_indicator {kind : IndicatorKind} (h : author.Fit (.indicator kind))
    (hk : n.indicatorKey = some (n.node.series symbol kind)) :
    n.Heeds author symbol (.indicator kind) := by
  have counts : (Kind.indicator kind).Counts "period" 1 500 := by
    cases kind <;> exact ⟨_, .head _, rfl, rfl, .inr rfl, rfl, rfl⟩
  have ⟨x, k, hc, heq, hlo, hhi, hcount⟩ :=
    h.exists_count 1 500 counts (by decide) (by decide) (by decide)
  have hp : n.node.period = k := by
    rw [hn, Node.period, hcount greatestPeriod (by decide), Option.getD_some]
  rw [Node.series, hp] at hk
  refine .indicator hc heq ⟨hlo, hhi⟩ hp hk fun r id => ?_
  exact congrArg (Option.getD · _) hk

theorem heeds_condition {kind : ConditionKind} (h : author.Fit (.condition kind)) :
    n.Heeds author symbol (.condition kind) := by
  cases kind
  case threshold =>
    obtain ⟨c, hc, operator⟩ := h.exists_comparison
    obtain ⟨x, hx, threshold⟩ := h.exists_float "threshold" (by decide)
    refine .threshold hc hx fun r id => ?_
    simp only [NodeView.runThreshold, Progress.view, hn, operator, threshold, Option.getD_some,
      c.compare_symbol]
    rfl
  case range =>
    obtain ⟨lo, hlo, lower⟩ := h.exists_float "lower" (by decide)
    obtain ⟨hi, hhi, upper⟩ := h.exists_float "upper" (by decide)
    refine .range hlo hhi fun r id => ?_
    simp only [NodeView.runRange, Progress.view, hn, lower, upper, Option.getD_some]
    rfl
  case duration =>
    obtain ⟨x, hx, duration⟩ := h.exists_float "duration_seconds" (by decide)
    obtain ⟨b, hb, reset⟩ := h.exists_bool "reset_on_false" (by decide)
    refine .duration hx hb ?_
    rw [hn, Hold.Rule.ofNode, duration, reset, Option.getD_some, Option.getD_some]
  case sequence =>
    obtain ⟨x, k, hc, heq, hlo, hhi, required⟩ :=
      h.exists_count 1 1000 ⟨_, .head _, rfl, rfl, .inr rfl, rfl, rfl⟩
        (by decide) (by decide) (by decide)
    obtain ⟨gap, hg, maxGap⟩ := h.exists_float "max_gap_seconds" (by decide)
    refine .sequence hc heq ⟨hlo, hhi⟩ hg ?_
    rw [hn, Sequence.Rule.ofNode, required greatestUnsigned (by decide), maxGap, Option.getD_some,
      Option.getD_some]

theorem heeds_composition {kind : CompositionKind} (h : author.Fit (.composition kind)) :
    n.Heeds author symbol (.composition kind) := by
  cases kind
  case and      => exact .gate (.inl rfl)
  case or       => exact .gate (.inr rfl)
  case weighted =>
    obtain ⟨x, hx, threshold⟩ := h.exists_float "threshold" (by decide)
    refine .weighted hx fun r id => ?_
    simp only [NodeView.runComposition, Progress.view, hn, threshold, Option.getD_some]
    rfl

theorem heeds_action {kind : ActionKind} (h : author.Fit (.action kind)) :
    n.Heeds author symbol (.action kind) := by
  cases kind
  case buy | sell =>
    obtain ⟨size, hs, quantity⟩ := h.exists_float "size" (by decide)
    obtain ⟨certainty, hc, confidence⟩ := h.exists_float "confidence" (by decide)
    obtain ⟨risk, hr, riskLevel⟩ := h.exists_string "risk_level" (by decide)
    refine .order (by decide) hs hc hr fun r id s => ?_
    simp only [NodeView.signal, Progress.view, NodeView.quantity, NodeView.riskLevel, hn, quantity,
      confidence, riskLevel, Option.getD_some, and_self]
  case closePosition =>
    obtain ⟨certainty, hc, confidence⟩ := h.exists_float "confidence" (by decide)
    refine .close hc fun r id s => ?_
    simp only [NodeView.signal, Progress.view, hn, confidence, Option.getD_some]
  case alert =>
    obtain ⟨text, ht, message⟩ := h.exists_string "message" (by decide)
    obtain ⟨risk, hr, riskLevel⟩ := h.exists_string "level" (by decide)
    refine .alert ht hr fun r id s => ?_
    simp only [NodeView.signal, Progress.view, NodeView.message?, NodeView.riskLevel, hn, message,
      riskLevel, Option.getD_some, and_self]
  case emergencyExit => exact .exit

theorem serves (h : author.Fit n.kind)
    (hk : ∀ kind, n.kind = .indicator kind → n.indicatorKey = some (n.node.series symbol kind)) :
    n.Serves author symbol where
  kind   := h.kind
  values := fun _ hp hd => hn ▸ h.exists_chosen hp hd
  run    := by
    cases hkind : n.kind <;> rw [hkind] at h
    case dataSource       => exact .source
    case indicator kind   => exact heeds_indicator hn h <| hk kind hkind
    case condition kind   => exact heeds_condition hn h
    case composition kind => exact heeds_composition hn h
    case action kind      => exact heeds_action hn h

end PlanNode

namespace Graph

variable {g m : Graph} {setup : Setup} {services : Services} {strategy symbol : String} {p q : Plan}

-- A plan does not forget what was chosen in the course of its ticks.
theorem heeds_of_blank_eq (hc : (g.compile setup services strategy symbol).1 = .ok p)
    (hw : m.WellFormed) (hi : p.Implements m.hydrate) (hb : q.blank = p.blank) : q.Heeds m := by
  intro id n hn
  have ⟨n₀, hn₀, hkind, hnode, _⟩ := Plan.exists_alike_of_blank_eq hb hn
  have hl := hi.linked.links id n₀ hn₀
  have ⟨author, ha, hh⟩ := List.mem_map.mp hl.mem
  have hid : author.id = id := by rw [←author.hydrate_id, hh, hi.linked.id id n₀ hn₀]
  have fit : author.Fit n.kind := {
    kind       := by rw [←hkind, ←hl.kind, ←hh, Node.hydrate_nodeType]
    known      := hw.known author ha
    parameters := hw.parameters author ha }
  have keyed : q.Keyed := (keyed_of_compile hc).congr hb
  exact ⟨author, ha, hid, PlanNode.serves (hnode ▸ hh.symm) fit fun kind => keyed id n kind hn⟩

theorem heeds_of_compile (hc : (g.compile setup services strategy symbol).1 = .ok p) :
    ∃ m, setup.registry.migrate g none = .ok m ∧ p.Heeds m ∧
      (∀ moments, ∀ t ∈ p.run moments, t.plan.Heeds m) ∧
      (setup.registry.hops = [] → p.Heeds g ∧ ∀ moments, ∀ t ∈ p.run moments, t.plan.Heeds g) := by
  have ⟨m, hm, hw, hi⟩ := exists_implements_of_compile hc
  have run : ∀ moments, ∀ t ∈ p.run moments, t.plan.Heeds m := by
    intro moments t ht
    have ⟨q, moment, hb, ht⟩ := Plan.exists_of_mem_run (motive := fun q => q.blank = p.blank) rfl
      (fun q m hq => (Plan.blank_tickAt q m).trans hq) ht
    exact heeds_of_blank_eq hc hw hi <| ht ▸ (Plan.blank_tickAt q moment).trans hb
  have plan : p.Heeds m := heeds_of_blank_eq hc hw hi rfl
  refine ⟨m, hm, plan, run, fun hr => ?_⟩
  -- without a hop the authors' nodes are still there
  obtain ⟨_, rfl⟩ := Registry.exists_stamp_of_migrate hr hm
  exact ⟨plan, run⟩

-- Nobody told for how much to buy. Who gives the signal would take nothing at all for that.
theorem heeds_trend :
    ∃ p, (trend.compile {} {} "trend" "BTC").1 = .ok p ∧ p.Heeds trend ∧
      ∃ n, p.nodes.get? "buy" = some n ∧
        ∀ (r : Progress) id s, ((r.view id n).signal s .buy).quantity = 100 := by
  have ⟨p, hc⟩ := exists_compile (fun v hv => by cases hv) wellFormed_trend {} "trend" "BTC"
  have ⟨m, hm, _, hi⟩ := exists_implements_of_compile hc
  have ⟨_, _, _, _, h⟩ := heeds_of_compile hc
  have h := (h rfl).left
  obtain ⟨_, rfl⟩ := Registry.exists_stamp_of_migrate rfl hm
  have ⟨n, hn⟩ := hi.exists_get?_iff.mpr (by decide : "buy" ∈ Validation.ids trend.hydrate)
  refine ⟨p, hc, h, n, hn, ?_⟩
  obtain ⟨author, ha, hid, hk, _, hr⟩ := h "buy" n hn
  cases eq_of_id_eq wellFormed_trend.distinct ha
    (.tail _ <| .tail _ <| .tail _ <| .tail _ <| .tail _ <| .head _) hid
  rw [←Option.some.inj hk] at hr
  cases hr
  case order hs _ _ _ hx =>
    have ungiven : ¬(Dict.empty : Dict Json).Gives "size" := fun ⟨_, hv, _⟩ => by cases hv
    have default : Node.Defaults ⟨"buy", "buy_signal", ⟨0, 0⟩, ∅, ∅⟩ "size" (Catalog.real 100) :=
      ⟨_, Node.declared_iff.mpr rfl, _, .head _, rfl, rfl⟩
    intro r id s
    exact (hx r id s).left.trans <| hs.unique ⟨_, .default ungiven default, rfl⟩

end Graph

end SignalFlow
