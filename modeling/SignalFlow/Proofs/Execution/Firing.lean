import SignalFlow.Proofs.Execution.Observations
import SignalFlow.Proofs.Execution.Signals
import SignalFlow.Proofs.Plan.Wiring

/-!
When actions fire. A node that is blocked has a source that did not complete, and one that runs has
a value from each source. So the graph and the values on the plan tell which actions have fired.
-/

namespace SignalFlow

open Validation (ids)

-- The quantity of an order is the size of its node, as the catalog admits it. What is no order has
-- no quantity.
def Signal.Sized (x : Signal) (n : Node) : ActionKind → Prop
  | .buy | .sell => ∃ v, n.hydrate.parameters.get? "size" = some v ∧ Catalog.size.Admits v ∧
      v.float? = some x.quantity
  | _            => x.quantity = 0

theorem Node.sized {n : Node} {d : Definition} {kind : ActionKind} {x : Signal}
    (h : n.Declared d) (hk : Kind.ofNodeType? n.nodeType = some (.action kind))
    (ha : ∀ p ∈ d.parameters, p.Accepts n.parameters)
    (hx : x.quantity = NodeView.quantity n.hydrate kind) : x.Sized n kind := by
  have hp := h.parameters_eq hk
  cases kind
  case buy | sell =>
    have hm : Catalog.size ∈ d.parameters := hp ▸ .head _
    have ⟨v, hv, hadmits⟩ := h.exists_admitted hm rfl (ha _ hm)
    have ⟨y, hy, _⟩ := hadmits.exists_float rfl
    have hv : n.hydrate.parameters.get? "size" = some v := hv
    refine ⟨v, hv, hadmits, ?_⟩
    rw [hx, NodeView.quantity, Node.float?, hv, Option.bind_some, hy, Option.getD_some]
  case closePosition | alert | emergencyExit => exact hx

namespace NodeView

variable {v : NodeView} {s : Surroundings} {bs : List Bool}

theorem runAction_of_booleans (kind : ActionKind) (hb : v.booleans "trigger" = .ok bs) :
    ∃ output, v.runAction s kind = .ok output ∧
      output.signal = if !bs.isEmpty && bs.all id then some (v.signal s kind) else none := by
  simp only [runAction, hb, bind, Except.bind]
  split
  case isTrue  => exact ⟨_, rfl, rfl⟩
  case isFalse => exact ⟨_, rfl, rfl⟩

end NodeView

namespace Plan

-- There is a `true` on the port, and its node completed.
def isTrueAt (p : Plan) (r : PortRef) : Bool :=
  p.isCompleted r.node && (p.valueAt? r).bind Value.bool? = some true

-- Something is wired into the trigger of the node, and all of it is true.
def isTriggered (p : Plan) (g : Graph) (id : String) : Bool :=
  let sources := g.refsInto id "trigger"
  !sources.isEmpty && sources.all p.isTrueAt

def isAction (p : Plan) (id : String) : Bool :=
  (p.nodes.get? id).any (·.kind.category = .action)

-- Each action that is triggered has fired one signal, in the order of execution, and nothing else
-- has. The signals carry what the plan and their nodes say.
structure Fires (p : Plan) (g : Graph) (after : Plan) (o : Outcome) : Prop where
  once    : p.order.Nodup
  every   : ∀ id, id ∈ p.order ↔ id ∈ ids g
  signals : o.signals.map Signal.node =
    p.order.filter fun id => p.isAction id && after.isTriggered g id
  carried : ∀ x ∈ o.signals, x.symbol = p.symbol ∧ x.strategy = p.strategy ∧
    ∃ n ∈ g.nodes, n.id = x.node ∧
      ∃ kind, Kind.ofNodeType? n.nodeType = some (.action kind) ∧ x.Sized n kind

variable {p q : Plan}

theorem all_isTrueAt_of_incomplete {refs : List PortRef} {r : PortRef} (hr : r ∈ refs)
    (hi : p.isCompleted r.node = false) : refs.all p.isTrueAt = false :=
  List.all_eq_false.mpr ⟨r, hr, by simp [isTrueAt, hi]⟩

-- Where all sources have put a boolean, the node reads what they have put.
theorem all_isTrueAt {refs : List PortRef} {bs : List Bool}
    (hc : ∀ r ∈ refs, p.isCompleted r.node ∧ ∃ b, p.valueAt? r = some (.bool b))
    (hb : refs.filterMap p.valueAt? = bs.map .bool) :
    bs.isEmpty = refs.isEmpty ∧ bs.all id = refs.all p.isTrueAt := by
  induction refs generalizing bs
  case nil            => cases bs <;> cases hb; exact ⟨rfl, rfl⟩
  case cons r refs hi =>
    have ⟨⟨hr, b, hv⟩, hc⟩ := List.forall_mem_cons.mp hc
    rw [List.filterMap_cons_some hv] at hb
    cases bs
    case nil       => cases hb
    case cons b bs =>
      have ⟨he, ht⟩ := List.cons.inj hb
      cases he
      simp [isTrueAt, hr, hv, Value.bool?, (hi hc ht).right]

-- An action whose turn it is reads a boolean from each source of its trigger.
theorem booleans_of_ready {x : Progress} {node : String} {n : PlanNode} {kind : ActionKind}
    {refs : List PortRef} (h : x.plan.Sound) (hn : x.plan.nodes.get? node = some n)
    (hk : n.kind = .action kind) (hb : x.blocker? n = none)
    (hr : x.plan.routes.get? node = some [⟨"trigger", refs⟩]) :
    ∃ bs, (x.view node n).booleans "trigger" = .ok bs ∧
      bs.isEmpty = refs.isEmpty ∧ bs.all id = refs.all x.plan.isTrueAt := by
  have ⟨bs, hbs⟩ := (hk ▸ Progress.fed_view h hn hb).triggers
  have ⟨port, hp, hname, htype⟩ : ∃ port, n.kind.input? = some port ∧ port.name = "trigger" ∧
      port.dataType = .boolean := by
    rw [hk]
    cases kind <;> exact ⟨_, rfl, rfl, rfl⟩
  have hs : x.plan.shape? node = some (n.kind, n.dependencies) := by
    rw [shape?, hn, Option.map_some]
  obtain ⟨sources, hroutes, _, hf⟩ := h.typed node _ _ port hs hp
  rw [hname] at hroutes
  cases hr.symm.trans hroutes
  refine ⟨bs, hbs, all_isTrueAt (fun r hm => ?_) ?_⟩
  · have hc := Progress.isCompleted_of_blocker? hb _ (hf r hm).after
    obtain ⟨v, hv, hcarries⟩ := h.exists_valueAt? (hf r hm) hc
    rw [htype] at hcarries
    obtain ⟨b, hb⟩ := hcarries
    exact ⟨hc, b, hb ▸ hv⟩
  · rw [←NodeView.values_of_booleans hbs]
    simp [NodeView.values, Progress.view, inputs, hroutes, Dict.ofList]

variable {g m : Graph} {id : String} {n : PlanNode} {s : Surroundings} {kind : ActionKind}

-- It makes no difference that the plan knows each source once.
theorem isTriggered_eq : p.isTriggered g id =
    (!(Compile.sources g id "trigger").isEmpty &&
      (Compile.sources g id "trigger").all p.isTrueAt) := by
  have mem r : r ∈ Compile.sources g id "trigger" ↔ r ∈ g.refsInto id "trigger" := by
    simp [Compile.sources_eq, Validation.mem_distinct_iff]
  have empty : (Compile.sources g id "trigger") = [] ↔ g.refsInto id "trigger" = [] := by
    simp only [List.eq_nil_iff_forall_not_mem, mem]
  apply Bool.eq_iff_iff.mpr
  simp [isTriggered, mem, empty]

theorem routes_of_action (h : p.Implements g) (hw : g.WellFormed)
    (hn : p.nodes.get? id = some n) (hk : n.kind = .action kind) :
    p.routes.get? id = some [⟨"trigger", Compile.sources g id "trigger"⟩] := by
  have ⟨port, hp, hname⟩ : ∃ port, n.kind.input? = some port ∧ port.name = "trigger" := by
    rw [hk]
    cases kind <;> exact ⟨_, rfl, rfl⟩
  have hl := h.linked.links id n hn
  have ⟨d, hd⟩ := hw.known n.node hl.mem
  have hr := Compile.get?_routes_of_input? hw.distinct hl.mem hd hl.kind hp
  rwa [h.linked.id id n hn, hname, ←h.routes] at hr

-- An action that is not triggered fires no signal, and one that is fires its own.
theorem exists_signal?_tick (h : p.Implements g) (hw : g.WellFormed) (hb : q.blank = p.blank)
    (hs : (q.tick s).plan.Sound) (hn : (q.tick s).plan.nodes.get? id = some n)
    (hk : n.kind = .action kind) :
    ∃ v : NodeView, v.node = n.node ∧ v.symbol = p.symbol ∧ v.strategy = p.strategy ∧
      n.signal? = if (q.tick s).plan.isTriggered g id then some (v.signal s kind) else none := by
  have hc : q.Causal := (h.causal hw <| Graph.isOrder_of_implements h hw).congr hb
  have ht : (q.tick s).plan.blank = p.blank := (blank_tick hc s).trans hb
  have ⟨n₀, hn₀, hk₀, _, hd₀⟩ := exists_alike_of_blank_eq ht hn
  have hroutes := routes_of_action h hw hn₀ (hk₀.trans hk)
  have ⟨indicators, hstate, _⟩ := exists_turn_of_tick hc hn
  let x := (q.tick s).plan.atTurn q.machines indicators
  refine ⟨x.view id n, rfl, symbol_eq_of_blank_eq ht, strategy_eq_of_blank_eq ht, ?_⟩
  rw [PlanNode.signal?, hstate, isTriggered_eq]
  cases hblocker : x.blocker? n
  case some d =>
    obtain ⟨hm, hi, _⟩ := Dict.least_of_find?_keys hblocker
    obtain ⟨route, hr, source, hsource, hd⟩ := (h.complete hw hn₀).mp (hd₀ ▸ hm)
    rw [hroutes] at hr
    cases List.mem_singleton.mp hr
    have incomplete : (q.tick s).plan.isCompleted source.node = false :=
      hd ▸ (Bool.not_eq_true' _).mp hi
    rw [Progress.turn, hblocker, all_isTrueAt_of_incomplete hsource incomplete, Bool.and_false]
    rfl
  case none   =>
    have sound : x.plan.Sound := ⟨hs.typed.congr rfl rfl, hs.states⟩
    obtain ⟨bs, hbs, hempty, hall⟩ := booleans_of_ready sound hn hk hblocker <|
      (congrArg (·.get? id) (routes_eq_of_blank_eq ht)).trans hroutes
    obtain ⟨output, hrun, hsignal⟩ := NodeView.runAction_of_booleans (s := s) kind hbs
    have hall : bs.all _ = (Compile.sources g id "trigger").all (q.tick s).plan.isTrueAt := hall
    have hstate : (x.turn s id n).1 = .completed output := by
      rw [Progress.turn, hblocker, hk]
      exact congrArg NodeState.ofResult hrun
    rw [hstate, ←hempty, ←hall]
    exact hsignal

theorem signal?_tick_of_not_action (h : q.Causal)
    (hn : (q.tick s).plan.nodes.get? id = some n) (hk : n.kind.category ≠ .action) :
    n.signal? = none := by
  cases hx : n.signal?
  case none   => rfl
  case some x =>
    obtain ⟨output, ho, hx⟩ := Option.bind_eq_some_iff.mp hx
    have ⟨_, ht, _⟩ := exists_turn_of_tick h hn
    have ⟨_, hr, _⟩ := Progress.run_of_turn (ht.symm.trans <| NodeState.eq_of_output? ho)
    have ⟨kind, he, _⟩ := NodeView.signal_of_run hr hx
    exact absurd (congrArg Kind.category he) hk

theorem exists_action_of_category {kind : Kind} (h : kind.category = .action) :
    ∃ action, kind = .action action := by
  cases kind <;> cases h
  exact ⟨_, rfl⟩

theorem map_signal?_tick (h : p.Implements g) (hw : g.WellFormed) (hb : q.blank = p.blank)
    (hs : (q.tick s).plan.Sound) (id : String) :
    ((q.tick s).plan.signal? id).map Signal.node =
      if p.isAction id && (q.tick s).plan.isTriggered g id then some id else none := by
  have hc : q.Causal := (h.causal hw <| Graph.isOrder_of_implements h hw).congr hb
  have ht : (q.tick s).plan.blank = p.blank := (blank_tick hc s).trans hb
  have named := Named.congr ht h.linked.id
  rw [signal?, isAction]
  cases hn : (q.tick s).plan.nodes.get? id
  case none   =>
    have hn₀ : p.nodes.get? id = none := by
      refine Option.eq_none_iff_forall_ne_some.mpr fun n₀ hn₀ => ?_
      obtain ⟨n, hn', _⟩ := exists_get?_of_blank_eq ht.symm hn₀
      cases hn.symm.trans hn'
    rw [hn₀]
    rfl
  case some n =>
    obtain ⟨n₀, hn₀, hk₀, _⟩ := exists_alike_of_blank_eq ht hn
    rw [hn₀, Option.any_some, hk₀, Option.bind_some]
    by_cases hk : n.kind.category = .action
    case neg => rw [signal?_tick_of_not_action hc hn hk]; simp [hk]
    case pos =>
      obtain ⟨kind, he⟩ := exists_action_of_category hk
      obtain ⟨v, hv, _, _, hsig⟩ := exists_signal?_tick h hw hb hs hn he
      have hnode : (v.signal s kind).node = id := by rw [NodeView.signal, hv, named id n hn]
      rw [hsig]
      cases (q.tick s).plan.isTriggered g id <;> simp [hk, hnode]

theorem carried_tick (h : p.Implements m.hydrate) (hw : m.WellFormed) (hb : q.blank = p.blank)
    (hs : (q.tick s).plan.Sound) {x : Signal} (hx : (q.tick s).plan.signal? id = some x) :
    x.symbol = p.symbol ∧ x.strategy = p.strategy ∧ ∃ n ∈ m.nodes, n.id = x.node ∧
      ∃ kind, Kind.ofNodeType? n.nodeType = some (.action kind) ∧ x.Sized n kind := by
  have hw' := Graph.wellFormed_hydrate_iff.mpr hw
  have hc : q.Causal := (h.causal hw' <| Graph.isOrder_of_implements h hw').congr hb
  have ht : (q.tick s).plan.blank = p.blank := (blank_tick hc s).trans hb
  obtain ⟨n, hn, hx⟩ := Option.bind_eq_some_iff.mp hx
  by_cases hk : n.kind.category = .action
  case neg => rw [signal?_tick_of_not_action hc hn hk] at hx; cases hx
  case pos =>
    have ⟨kind, he⟩ := exists_action_of_category hk
    have ⟨v, hv, hsymbol, hstrategy, hsig⟩ := exists_signal?_tick h hw' hb hs hn he
    rw [hsig] at hx
    split at hx <;> cases hx
    have ⟨n₀, hn₀, hk₀, hnode₀, _⟩ := exists_alike_of_blank_eq ht hn
    have hv : v.node = n₀.node := hv.trans hnode₀.symm
    have hl := h.linked.links id n₀ hn₀
    have ⟨y, hy, hh⟩ := List.mem_map.mp hl.mem
    have hk : Kind.ofNodeType? y.nodeType = some (.action kind) := by
      rw [←he, ←hk₀, ←hl.kind, ←hh, Node.hydrate_nodeType]
    have ⟨d, hd⟩ := hw.known y hy
    have hq : (v.signal s kind).quantity = NodeView.quantity y.hydrate kind := by
      rw [NodeView.signal, hv, hh]
    have hnode : y.id = (v.signal s kind).node := by rw [NodeView.signal, hv, ←hh, Node.hydrate_id]
    exact ⟨hsymbol, hstrategy, y, hy, hnode, kind, hk, Node.sized hd hk (hw.parameters y hy d hd) hq⟩

theorem fires_tick (h : p.Implements m.hydrate) (hw : m.WellFormed) (hb : q.blank = p.blank)
    (hs : (q.tick s).plan.Sound) : p.Fires m (q.tick s).plan (q.tick s).outcome := by
  have hw' := Graph.wellFormed_hydrate_iff.mpr hw
  have ho := Graph.isOrder_of_implements h hw'
  have hc : q.Causal := (h.causal hw' ho).congr hb
  have hr := reports_tick hc s
  rw [order_eq_of_blank_eq hb] at hr
  constructor
  case once    => exact ho.nodup
  case every   => exact fun id => m.ids_hydrate ▸ ho.perm.mem_iff
  case signals =>
    have hf := funext (map_signal?_tick h hw' hb hs)
    rw [hr.signals, List.map_filterMap, hf, ←List.filterMap_eq_filter]
    rfl
  case carried =>
    intro x hx
    rw [hr.signals] at hx
    have ⟨id, _, hx⟩ := List.mem_filterMap.mp hx
    exact carried_tick h hw hb hs hx

variable {setup : Setup} {services : Services} {strategy symbol : String}

-- In every tick of a compiled plan, just those actions fire that the graph and the values on the
-- plan tell to.
theorem fires_of_compile (hm : setup.registry.migrate g none = .ok m)
    (hc : (g.compile setup services strategy symbol).1 = .ok p) (moments : List Moment) :
    ∀ t ∈ p.run moments, ∀ o ∈ t.outcome, p.Fires m t.plan o := by
  have ⟨hw, hi⟩ := Graph.implements_of_compile hm hc
  intro t ht o ho
  have ⟨q, moment, hb, hq, he⟩ := (Graph.intact_of_compile hc).exists_of_mem_run ht
  have hs := (sound_tickAt hq.typed moment).left
  rw [he] at ho ⊢
  have ht := tick_eq_of_tickAt ho
  have := fires_tick (q := q) (s := moment.surroundings) hi (Graph.wellFormed_hydrate_iff.mp hw) hb
    (ht ▸ hs)
  rwa [ht] at this

theorem fires_flatten :
    ∃ p, (Graph.flatten.compile {} {} "flatten" "BTC").1 = .ok p ∧
      ∃ t ∈ p.run [.noon none], ∃ o ∈ t.outcome, o.signals ≠ [] ∧
        p.Fires (Registry.stamp Graph.flatten Registry.firstVersion) t.plan o := by
  have ⟨p, hc, t, ht, o, ho, x, hx, _⟩ := Graph.emits_flatten
  have fires := fires_of_compile (Registry.migrate_new Graph.supported_flatten) hc [.noon none]
  exact ⟨p, hc, t, ht, o, ho, List.ne_nil_of_mem hx, fires t ht o ho⟩

end Plan

end SignalFlow
