import SignalFlow.Proofs.Execution.Settled

/-!
Two ticks side by side. Where the nodes of a part of the plan that contains all its dependencies
read the same, they end the same, whatever happens on the rest of the plan and in whatever order.
-/

namespace SignalFlow

-- Outputs, states and nodes as they are if some of what their signals record is left out.

def NodeOutput.mapSignal (f : Signal → Signal) (o : NodeOutput) : NodeOutput :=
  { o with signal := o.signal.map f }

def NodeState.mapSignal (f : Signal → Signal) : NodeState → NodeState
  | .completed output => .completed (output.mapSignal f)
  | state             => state

def PlanNode.mapSignal (f : Signal → Signal) (n : PlanNode) : PlanNode :=
  { n with state := n.state.mapSignal f, earlier := n.earlier.map (NodeState.mapSignal f) }

section MapSignal

variable {f : Signal → Signal} {n : PlanNode}

theorem NodeState.output?_mapSignal (state : NodeState) :
    (state.mapSignal f).output? = state.output?.map (NodeOutput.mapSignal f) := by
  cases state <;> rfl

theorem PlanNode.output?_mapSignal (n : PlanNode) :
    (n.mapSignal f).output? = n.output?.map (NodeOutput.mapSignal f) := by
  have h (states : List NodeState) :
      (states.map (NodeState.mapSignal f)).findSome? NodeState.output? =
        (states.findSome? NodeState.output?).map (NodeOutput.mapSignal f) := by
    rw [List.findSome?_map, List.map_findSome?]
    congr 1
    funext state
    exact state.output?_mapSignal
  exact h (n.state :: n.earlier)

theorem PlanNode.mapSignal_enter (state : NodeState) :
    (n.enter state).mapSignal f = (n.mapSignal f).enter (state.mapSignal f) :=
  rfl

-- Signals are not among the values that a node passes on.
theorem Plan.offers_of_mapSignal_eq {p q : Plan} {id : String}
    (h : (p.nodes.get? id).map (PlanNode.mapSignal f) =
      (q.nodes.get? id).map (PlanNode.mapSignal f)) : p.Offers q id where
  completed   := by
    have hc (p : Plan) : p.isCompleted id =
        ((p.nodes.get? id).map (PlanNode.mapSignal f)).any (·.state.isCompleted) := by
      rw [isCompleted, Option.any_map]
      congr 1
      funext n
      simp [PlanNode.mapSignal, NodeState.isCompleted, NodeState.output?_mapSignal]
    rw [hc, hc, h]
  values port := by
    have hv (p : Plan) : p.valueAt? ⟨id, port⟩ =
        (((p.nodes.get? id).map (PlanNode.mapSignal f)).bind PlanNode.output?).bind
          (·.values.get? port) := by
      rw [valueAt?]
      cases p.nodes.get? id
      case none   => rfl
      case some n =>
        simp only [Option.bind_some, Option.map_some, PlanNode.output?_mapSignal]
        cases n.output? <;> rfl
    rw [hv, hv, h]

end MapSignal

-- What a node reads of the world: a source its figure of the market, an indicator its series.
def NodeView.reads (v : NodeView) (kind : Kind) (s : Surroundings) :
    Option Float × Option Reading :=
  match kind with
  | .dataSource .price  => ((s.snapshot.get? v.watchedSymbol).bind (·.price), none)
  | .dataSource .volume => ((s.snapshot.get? v.watchedSymbol).bind (·.volume), none)
  | .indicator kind     => (none, some <| s.readings <| v.series kind)
  | _                   => (none, none)

namespace NodeView

variable {f : Signal → Signal} {v : NodeView} {s s' : Surroundings} {indicators : Dict Float}

theorem runSource_congr {kind : SourceKind}
    (reads : v.reads (.dataSource kind) s = v.reads (.dataSource kind) s') :
    v.runSource s kind = v.runSource s' kind := by
  cases kind
  case price | volume =>
    have hr := congrArg Prod.fst reads
    dsimp only [NodeView.reads] at hr
    simp only [runSource, hr]

theorem runIndicator_congr {kind : IndicatorKind} (timeout : s.timeout = s'.timeout)
    (reads : v.reads (.indicator kind) s = v.reads (.indicator kind) s') :
    v.runIndicator s kind = v.runIndicator s' kind := by
  have hr : s.readings (v.series kind) = s'.readings (v.series kind) :=
    Option.some.inj <| congrArg Prod.snd reads
  simp only [runIndicator, hr, timeout]

theorem runTemporal_congr {port : String} {machine : Option Machine} (now : s.now = s'.now) :
    v.runTemporal s port machine = v.runTemporal s' port machine := by
  simp only [runTemporal, now]

-- Of the indicators of the tick, nothing but signals takes notice.
theorem runAction_congr {kind : ActionKind}
    (signal : f (v.signal s kind) = f ({ v with indicators }.signal s' kind)) :
    (NodeState.ofResult (v.runAction s kind)).mapSignal f =
      (NodeState.ofResult ({ v with indicators }.runAction s' kind)).mapSignal f := by
  have hb : { v with indicators }.booleans "trigger" = v.booleans "trigger" := rfl
  simp only [runAction, hb]
  cases v.booleans "trigger"
  case error e => rfl
  case ok bs   =>
    simp only [bind, Except.bind]
    split
    case isTrue  =>
      simp only [NodeState.ofResult, NodeState.mapSignal, NodeOutput.mapSignal, Option.map_some,
        signal]
    case isFalse => rfl

theorem run_congr {kind : Kind} {machine : Option Machine} (now : s.now = s'.now)
    (timeout : s.timeout = s'.timeout) (reads : v.reads kind s = v.reads kind s')
    (signal : ∀ kind, f (v.signal s kind) = f ({ v with indicators }.signal s' kind)) :
    (NodeState.ofResult (v.run s kind machine).1).mapSignal f =
        (NodeState.ofResult ({ v with indicators }.run s' kind machine).1).mapSignal f ∧
      (v.run s kind machine).2 = ({ v with indicators }.run s' kind machine).2 := by
  cases kind
  case dataSource kind  =>
    have hr : v.runSource s kind = { v with indicators }.runSource s' kind := runSource_congr reads
    simp only [run, hr, and_self]
  case indicator kind   =>
    have hr : v.runIndicator s kind = { v with indicators }.runIndicator s' kind :=
      runIndicator_congr timeout reads
    simp only [run, hr, and_self]
  case composition kind => exact ⟨rfl, rfl⟩
  case action kind      => exact ⟨runAction_congr <| signal kind, rfl⟩
  case condition kind   =>
    cases kind
    case threshold => exact ⟨rfl, rfl⟩
    case range     => exact ⟨rfl, rfl⟩
    case duration | sequence =>
      have hr port : v.runTemporal s port machine =
          { v with indicators }.runTemporal s' port machine := runTemporal_congr now
      simp only [run, hr, and_self]

end NodeView

def PlanNode.reads (n : PlanNode) (symbol : String) (s : Surroundings) :
    Option Float × Option Reading :=
  (⟨n.node, ∅, "", symbol, ∅, n.indicatorKey⟩ : NodeView).reads n.kind s

def Plan.reads (p : Plan) (id : String) (s : Surroundings) :
    Option (Option Float × Option Reading) :=
  (p.nodes.get? id).map fun n => n.reads p.symbol s

theorem Plan.reads_of_blank_eq {p q : Plan} (h : q.blank = p.blank) : q.reads = p.reads := by
  funext id s
  have hr (p : Plan) :
      p.reads id s = (p.reset.nodes.get? id).map fun n => n.reads p.symbol s := by
    rw [reads, get?_reset, Option.map_map]
    rfl
  rw [hr, hr, nodes_reset_of_blank_eq h, (sameSetting_of_blank_eq h).symbol]

-- The part of the plan reads the same, at the same time and under the same settings.
structure Surroundings.AgreeOn (p : Plan) (part : String → Prop) (s s' : Surroundings) : Prop where
  now     : s.now = s'.now
  timeout : s.timeout = s'.timeout
  reads   : ∀ id, part id → p.reads id s = p.reads id s'

theorem Surroundings.AgreeOn.congr {p q : Plan} {part : String → Prop} {s s' : Surroundings}
    (h : s.AgreeOn p part s') (hb : q.blank = p.blank) : s.AgreeOn q part s' where
  now     := h.now
  timeout := h.timeout
  reads   := Plan.reads_of_blank_eq hb ▸ h.reads

-- Where signals record what the surroundings need not have in common, `f` leaves it out.
def Surroundings.SignalAlike (f : Signal → Signal) (s s' : Surroundings) : Prop :=
  ∀ (v : NodeView) kind indicators, f (v.signal s kind) = f ({ v with indicators }.signal s' kind)

namespace Plan

variable {f : Signal → Signal} {p q : Plan} {part : String → Prop} {s s' : Surroundings}

-- The part contains the dependencies of its nodes.
def Closed (p : Plan) (part : String → Prop) : Prop :=
  ∀ id n, part id → p.nodes.get? id = some n → ∀ d ∈ n.dependencies.keys, part d

-- The plans look the same before a tick, and on the part their machines are equal.
structure AgreeOn (part : String → Prop) (p q : Plan) : Prop where
  setting  : p.SameSetting q
  nodes    : q.reset.nodes = p.reset.nodes
  machines : ∀ id, part id → p.machines.get? id = q.machines.get? id

structure AlikeAt (f : Signal → Signal) (p q : Plan) (id : String) : Prop where
  node    : (p.nodes.get? id).map (PlanNode.mapSignal f) =
    (q.nodes.get? id).map (PlanNode.mapSignal f)
  machine : p.machines.get? id = q.machines.get? id

end Plan

theorem Progress.turn_agree {f : Signal → Signal} {p q : Progress} {part : String → Prop}
    {s s' : Surroundings} {id : String} {n : PlanNode} (hs : p.plan.SameSetting q.plan)
    (hr : p.plan.Routed id n) (hd : ∀ d ∈ n.dependencies.keys, p.plan.Offers q.plan d)
    (hm : p.plan.machines.get? id = q.plan.machines.get? id)
    (ha : s.AgreeOn p.plan part s') (hf : s.SignalAlike f s')
    (hn : n.reads p.plan.symbol s = n.reads p.plan.symbol s') :
    (p.turn s id n).1.mapSignal f = (q.turn s' id n).1.mapSignal f ∧
      (p.turn s id n).2 = (q.turn s' id n).2 := by
  rw [turn, turn, blocker?_congr hd, view_congr hs hr hd, hm]
  split
  case h_1 => exact ⟨rfl, rfl⟩
  case h_2 =>
    exact NodeView.run_congr ha.now ha.timeout hn fun kind => hf _ kind _

namespace Plan

variable {f : Signal → Signal} {p q : Plan} {part : String → Prop} {s s' : Surroundings}

theorem alikeAt_tick_of_not_mem (hp : p.Causal) (hq : q.Causal) (h : p.AgreeOn part q) {id : String}
    (hi : part id) (hm : id ∉ p.order) : (p.tick s).plan.AlikeAt f (q.tick s').plan id := by
  have hm' : id ∉ q.order := by
    rw [hp.mem] at hm
    rw [hq.mem]
    intro ⟨n, hn⟩
    have he : (p.nodes.get? id).map PlanNode.reset = some n.reset := by
      rw [←get?_reset, ←h.nodes, get?_reset, hn, Option.map_some]
    have ⟨m, hn, _⟩ := Option.map_eq_some_iff.mp he
    exact hm ⟨m, hn⟩
  constructor
  case node    =>
    rw [(settling_tick hp s).nodes id hm, (settling_tick hq s').nodes id hm', h.nodes]
  case machine =>
    rw [(settling_tick hp s).machines id hm, (settling_tick hq s').machines id hm']
    exact h.machines id hi

-- Along the order, every node of the part takes the same turn in both ticks.
theorem alikeAt_tick (hp : p.Causal) (hq : q.Causal) (hc : p.Closed part) (h : p.AgreeOn part q)
    (ha : s.AgreeOn p part s') (hf : s.SignalAlike f s') {id : String} (hi : part id) :
    (p.tick s).plan.AlikeAt f (q.tick s').plan id := by
  by_cases hm : id ∈ p.order
  case neg => exact alikeAt_tick_of_not_mem hp hq h hi hm
  case pos =>
    let Alike id := part id → (p.tick s).plan.AlikeAt f (q.tick s').plan id
    refine hp.induction (motive := Alike) (fun id n hn hd hi => ?_) id hm hi
    have hn' : p.reset.nodes.get? id = some n.reset := by rw [get?_reset, hn, Option.map_some]
    have ⟨i, hs, hma⟩ := settledAt_tick hp s id n.reset hn'
    have ⟨i', hs', hma'⟩ := settledAt_tick hq s' id n.reset (h.nodes ▸ hn')
    have bp := sameSetting_of_blank_eq (blank_tick hp s)
    have bq := sameSetting_of_blank_eq (blank_tick hq s')
    have setting : ((p.tick s).plan.atTurn p.reset.machines i).plan.SameSetting
        ((q.tick s').plan.atTurn q.reset.machines i').plan := by
      constructor
      case strategy => exact bq.strategy.trans <| h.setting.strategy.trans bp.strategy.symm
      case symbol   => exact bq.symbol.trans <| h.setting.symbol.trans bp.symbol.symm
      case routes   => exact bq.routes.trans <| h.setting.routes.trans bp.routes.symm
    have routed : ((p.tick s).plan.atTurn p.reset.machines i).plan.Routed id n.reset :=
      (hp.routed id n hn).congr (blank_tick hp s)
    have offers : ∀ d ∈ n.reset.dependencies.keys,
        ((p.tick s).plan.atTurn p.reset.machines i).plan.Offers
          ((q.tick s').plan.atTurn q.reset.machines i').plan d :=
      fun d hm => offers_of_mapSignal_eq (hd d hm <| hc id n hi hn d hm).node
    have reads := ha.reads id hi
    simp only [Plan.reads, hn, Option.map_some, Option.some.injEq] at reads
    have ⟨ht, htm⟩ := Progress.turn_agree setting routed offers (h.machines id hi)
      (ha.congr (blank_tick hp s)) hf (bp.symbol ▸ reads)
    constructor
    case node    => rw [hs, hs', Option.map_some, Option.map_some, PlanNode.mapSignal_enter,
      PlanNode.mapSignal_enter, ht]
    case machine => rw [hma, hma', htm]

end Plan

end SignalFlow
