import SignalFlow.Proofs.Execution.Accounts
import SignalFlow.Proofs.Execution.Signals
import SignalFlow.Proofs.Plan.Wiring

/-!
The indicators that a signal names. An action copies what is known of them when it fires, which is
in the middle of a tick. By then every indicator that it depends on has come to its value, and a
value that was found stays for the rest of the tick.
-/

open Relation

namespace SignalFlow

namespace Plan

section Turns

variable {p : Plan} {s : Surroundings} {id : String} {n : PlanNode} {done rest : List String}
  {x : Signal} {v : Float}

-- A signal knows of the indicators what was known of them at the turn of its action.
theorem exists_turn_of_signal (h : p.Causal) (hp : p.Named)
    (hx : x ∈ (p.tick s).outcome.signals) :
    ∃ done rest, p.order = done ++ x.node :: rest ∧ (p.tick s).plan.isCompleted x.node ∧
      x.indicators = (p.upTo s done).outcome.indicators := by
  rw [(reports_tick h s).signals] at hx
  have ⟨id, hm, hx⟩ := List.mem_filterMap.mp hx
  have ⟨n, hn, hx⟩ := Option.bind_eq_some_iff.mp hx
  have ⟨output, ho, hx⟩ := Option.bind_eq_some_iff.mp hx
  have hs := NodeState.eq_of_output? ho
  have ⟨done, rest, ho⟩ := List.append_of_mem hm
  have ⟨m, _, ht, _⟩ := exists_turn_upTo h ho hn
  have ⟨_, hr, _⟩ := Progress.run_of_turn ((congrArg PlanNode.state ht).symm.trans hs)
  have ⟨kind, _, he⟩ := NodeView.signal_of_run hr hx
  have hid : x.node = id := by
    rw [he]
    exact (congrArg (·.node.id) ht).symm.trans <| hp.congr (blank_tick h s) id n hn
  exact ⟨done, rest, hid ▸ ho, isCompleted_iff.mpr ⟨n, output, hid ▸ hn, hs⟩, he ▸ rfl⟩

-- What is known in the middle of a tick is a part of what is known in the end.
theorem get?_indicators_upTo (h : p.Causal) (ho : p.order = done ++ rest) (id : String) :
    (p.upTo s done).outcome.indicators.get? id =
      if id ∈ done then (p.tick s).outcome.indicators.get? id else none := by
  rw [(reports_upTo h s ho).indicators, (reports_tick h s).indicators]
  by_cases hid : id ∈ done
  case neg => simp [hid]
  case pos =>
    have hm : id ∈ p.order := ho ▸ List.mem_append_left _ hid
    simp only [hid, hm, if_true, indicator?, get?_nodes_upTo h ho hid]

-- A value is one that an indicator has put on its port in this tick, and it was read in this tick.
theorem exists_of_get?_indicators (h : p.Causal)
    (hv : (p.tick s).outcome.indicators.get? id = some v) :
    ∃ n kind, (p.tick s).plan.nodes.get? id = some n ∧ n.kind = .indicator kind ∧
      (p.tick s).plan.valueAt? ⟨id, "value"⟩ = some (.number v) ∧
      (s.readings (n.indicatorKey.getD (n.node.series p.symbol kind))).value? kind = some v := by
  rw [(reports_tick h s).indicators] at hv
  split at hv
  case isFalse => cases hv
  case isTrue  =>
    have ⟨n, hn, hv⟩ := Option.bind_eq_some_iff.mp hv
    have ⟨output, hi, _⟩ := Option.bind_eq_some_iff.mp hv
    have ⟨kind, x, hk, hx, hvx, hr, _⟩ := value_of_tick h hn hi
    cases hvx.symm.trans hv
    have ⟨_, _, hs⟩ := PlanNode.eq_of_indication? hi
    refine ⟨n, kind, hn, hk, ?_, symbol_eq_of_blank_eq (blank_tick h s) ▸ hr⟩
    simp [valueAt?, hn, PlanNode.output?_of_completed hs, hx]

-- An indicator that completed is known in the end.
theorem exists_get?_indicators (h : p.Causal) (hn : (p.tick s).plan.nodes.get? id = some n)
    {kind : IndicatorKind} (hk : n.kind = .indicator kind) (hc : (p.tick s).plan.isCompleted id) :
    ∃ v, (p.tick s).outcome.indicators.get? id = some v := by
  have ⟨_, output, hn', hs⟩ := isCompleted_iff.mp hc
  cases hn.symm.trans hn'
  have hi : n.indication? = some output := by rw [PlanNode.indication?, hs, hk]; rfl
  have ⟨_, x, _, _, hx, _⟩ := value_of_tick h hn hi
  have hm : id ∈ p.order :=
    order_eq_of_blank_eq (blank_tick h s) ▸ ((h.congr (blank_tick h s)).mem id).mpr ⟨n, hn⟩
  exact ⟨x, by rw [(reports_tick h s).indicators, if_pos hm, indicator?, hn, Option.bind_some, hx]⟩

end Turns

variable {p q : Plan} {g m : Graph} {id d : String} {done rest : List String} {s : Surroundings}

-- What leads to a node that completed has completed, and before it.
theorem Finished.completed_of_path (h : p.Finished g) (hc : p.isCompleted id)
    (ho : p.order = done ++ id :: rest) (ht : TransGen g.Feeds d id) :
    p.isCompleted d ∧ d ∈ done := by
  have completed {u v} (hv : p.isCompleted v) (hf : g.Feeds u v) : p.isCompleted u := by
    have ⟨n, _, hn, _⟩ := isCompleted_iff.mp hv
    by_contra hi
    exact (h.skipped_of_feeds hn hf hi).not_isCompleted hv
  induction ht using TransGen.head_induction_on
  case single u hf    =>
    have ⟨n, _, hn, _⟩ := isCompleted_iff.mp hc
    exact ⟨completed hc hf, h.causal.after done id rest n ho hn u <|
      (h.dependencies id n hn u).mpr hf⟩
  case head u v hf _ hi =>
    have ⟨n, _, hn, _⟩ := isCompleted_iff.mp hi.left
    exact ⟨completed hi.left hf, h.causal.mem_done ho hi.right hn u <|
      (h.dependencies v n hn u).mpr hf⟩

-- What is on the port at one end of an edge arrives at the other.
theorem Implements.mem_inputs (h : p.Implements g) (hw : g.WellFormed) (hr : q.routes = p.routes)
    {e : Edge} (he : e ∈ g.edges) {v : Value}
    (hv : q.valueAt? ⟨e.sourceNode, e.sourcePort⟩ = some v) :
    v ∈ ((q.inputs e.targetNode).get? e.targetPort).getD [] := by
  have ⟨n, hn⟩ := h.exists_get?_iff.mpr (hw.resolved e he).right
  have hl := h.linked.links _ n hn
  have hid := h.linked.id _ n hn
  have ⟨d, hd⟩ := hw.known n.node hl.mem
  have ⟨output, input, hwires⟩ := hw.wired e he
  have ht := (Graph.hasPort_iff hw.distinct hl.mem hd).mp (hid ▸ hwires.target)
  have hi := (hd.mem_inputs_iff hl.kind).mp <|
    Definition.mem_inputs_iff.mpr ⟨ht, hwires.targetPort.right⟩
  have hroutes := Compile.get?_routes_of_input? hw.distinct hl.mem hd hl.kind hi
  rw [hid, hwires.targetPort.left, ←h.routes, ←hr] at hroutes
  have hs : ⟨e.sourceNode, e.sourcePort⟩ ∈ Compile.sources g e.targetNode e.targetPort :=
    Compile.mem_sources_iff.mpr ⟨e, he, rfl, rfl, rfl⟩
  simp only [inputs, hroutes, Option.getD_some, List.map_cons, List.map_nil]
  simpa [Dict.ofList] using ⟨_, hs, hv⟩

-- What is on the port in the end was there at the turn of the other node.
theorem Implements.mem_inputs_upTo (h : p.Implements g) (hw : g.WellFormed) (hb : q.blank = p.blank)
    {e : Edge} (he : e ∈ g.edges) {v : Value}
    (hv : (q.tick s).plan.valueAt? ⟨e.sourceNode, e.sourcePort⟩ = some v)
    (ho : q.order = done ++ e.targetNode :: rest) :
    v ∈ (((q.upTo s done).plan.inputs e.targetNode).get? e.targetPort).getD [] := by
  have hc : q.Causal := (h.causal hw <| Graph.isOrder_of_implements h hw).congr hb
  have ⟨n, hn⟩ := h.exists_get?_iff.mpr (hw.resolved e he).right
  have ⟨n', hn', _, _, hd⟩ := exists_alike_of_blank_eq hb.symm hn
  have hfeeds : e.sourceNode ∈ n'.dependencies.keys :=
    hd ▸ (h.mem_dependencies_iff hn).mpr ⟨e, he, rfl, rfl⟩
  have hm : e.sourceNode ∈ done := hc.after done _ rest n' ho hn' _ hfeeds
  refine h.mem_inputs hw (routes_eq_of_blank_eq <| blank_upTo.trans hb) he ?_
  rw [←hv, valueAt?, valueAt?, get?_nodes_upTo hc ho hm]

-- The only port of an indicator is that of its value.
theorem Implements.sourcePort_eq (h : p.Implements g) (hw : g.WellFormed) {e : Edge}
    (he : e ∈ g.edges) {n : PlanNode} (hn : p.nodes.get? e.sourceNode = some n)
    {kind : IndicatorKind} (hk : n.kind = .indicator kind) : e.sourcePort = "value" := by
  have ⟨output, input, hwires⟩ := hw.wired e he
  have ⟨_, _, hs, ho⟩ := h.shape?_source hw hwires.source hwires.sourcePort.right
  rw [shape?, hn, Option.map_some] at hs
  cases hs
  rw [←hwires.sourcePort.left, ←ho, hk]
  rfl

-- What a signal knows of the indicators, if the nodes in `done` stand before its action: all that
-- is known of them at the end of the tick. It knows every indicator that leads to the action, by the
-- value that other nodes were given at their turns, and that value was found in this tick.
structure Trail (before : Plan) (g : Graph) (s : Surroundings) (o : Outcome) (x : Signal)
    (done : List String) : Prop where
  restricted : ∀ id, x.indicators.get? id = if id ∈ done then o.indicators.get? id else none
  ancestors  : ∀ id n kind, TransGen g.Feeds id x.node → before.nodes.get? id = some n →
    n.kind = .indicator kind → ∃ v, x.indicators.get? id = some v
  flowed     : ∀ id v, x.indicators.get? id = some v → ∀ e ∈ g.edges, e.sourceNode = id →
    ∀ earlier later, before.order = earlier ++ e.targetNode :: later →
      .number v ∈ (((before.upTo s earlier).plan.inputs e.targetNode).get? e.targetPort).getD []
  fresh      : ∀ id v, x.indicators.get? id = some v →
    ∃ n kind, before.nodes.get? id = some n ∧ n.kind = .indicator kind ∧
      (s.readings (n.node.series before.symbol kind)).value? kind = some v

theorem trail_tick (h : p.Implements g) (hw : g.WellFormed) (hk : p.Keyed) (hb : q.blank = p.blank)
    {x : Signal} (hx : x ∈ (q.tick s).outcome.signals) :
    ∃ done rest, q.order = done ++ x.node :: rest ∧ q.Trail g s (q.tick s).outcome x done := by
  have hf := h.finished_tick hw hb s
  have hc : q.Causal := (h.causal hw <| Graph.isOrder_of_implements h hw).congr hb
  have ht : (q.tick s).plan.blank = q.blank := blank_tick hc s
  have ⟨done, rest, ho, hcompleted, hi⟩ := exists_turn_of_signal hc (Named.congr hb h.linked.id) hx
  have restricted id : x.indicators.get? id =
      if id ∈ done then (q.tick s).outcome.indicators.get? id else none := by
    rw [hi, get?_indicators_upTo hc ho]
  have found {id v} (hv : x.indicators.get? id = some v) :
      (q.tick s).outcome.indicators.get? id = some v := by
    rw [restricted] at hv
    split at hv
    case isTrue  => exact hv
    case isFalse => cases hv
  refine ⟨done, rest, ho, restricted, ?ancestors, ?flowed, ?fresh⟩
  case ancestors =>
    intro id n kind hpath hn hkind
    have ⟨n', hn', he, _⟩ := exists_alike_of_blank_eq ht.symm hn
    have ⟨hid, hm⟩ := hf.completed_of_path hcompleted (order_eq_of_blank_eq ht ▸ ho) hpath
    have ⟨v, hv⟩ := exists_get?_indicators hc hn' (he.trans hkind) hid
    exact ⟨v, by rw [restricted, if_pos hm, hv]⟩
  case flowed    =>
    intro id v hv e he hid earlier later hearlier
    have ⟨n, kind, hn, hkind, hvalue, _⟩ := exists_of_get?_indicators hc (found hv)
    have ⟨n₀, hn₀, hkind₀, _⟩ := exists_alike_of_blank_eq (ht.trans hb) hn
    have hport := h.sourcePort_eq hw he (hid ▸ hn₀) (hkind₀.trans hkind)
    exact h.mem_inputs_upTo hw hb he (by rw [hid, hport, hvalue]) hearlier
  case fresh     =>
    intro id v hv
    have ⟨n, kind, hn, hkind, _, hr⟩ := exists_of_get?_indicators hc (found hv)
    have ⟨n', hn', he, hnode, _⟩ := exists_alike_of_blank_eq ht hn
    rw [hk.congr (ht.trans hb) id n kind hn hkind, Option.getD_some, ←hnode,
      symbol_eq_of_blank_eq ht] at hr
    exact ⟨n', kind, hn', he.trans hkind, hr⟩

variable {setup : Setup} {services : Services} {strategy symbol : String}

-- In every tick of a compiled plan, whatever it has been through, each signal leaves its trail.
theorem trail_of_compile (hm : setup.registry.migrate g none = .ok m)
    (hc : (g.compile setup services strategy symbol).1 = .ok p) (moments : List Moment)
    (moment : Moment) :
    let before := p.after moments
    ∀ o ∈ (before.tickAt moment).outcome, ∀ x ∈ o.signals,
      ∃ done rest, p.order = done ++ x.node :: rest ∧
        before.Trail m moment.surroundings o x done := by
  intro before o ho x hx
  have ⟨hw, hi⟩ := Graph.implements_of_compile hm hc
  have hb : before.blank = p.blank := blank_after p moments
  have ht := tick_eq_of_tickAt ho
  have ⟨done, rest, hd, htrail⟩ := trail_tick (s := moment.surroundings) hi hw
    (Graph.keyed_of_compile hc) hb (x := x) (by rw [ht]; exact hx)
  rw [ht] at htrail
  exact ⟨done, rest, order_eq_of_blank_eq hb ▸ hd, htrail.restricted, htrail.ancestors,
    htrail.flowed, htrail.fresh⟩

end Plan

-- A tick at noon in which every series has the value.
def Moment.showing (x : Float) : Moment :=
  let noon := Moment.noon none
  { noon with surroundings := { noon.surroundings with readings := fun _ => .ready x } }

namespace Graph

-- To buy when a mean of prices is above a hundred.
def crossing : Graph where
  name  := "crossing"
  nodes := trend.nodes.filter (·.id ∈ ["price", "mean", "above", "buy"])
  edges := [⟨"price", "price", "mean", "price"⟩, ⟨"mean", "value", "above", "value"⟩,
    ⟨"above", "result", "buy", "trigger"⟩]

theorem wellFormed_crossing : crossing.WellFormed := by
  apply wellFormed_of_rank fun id => ["price", "mean", "above", "buy"].idxOf id
  case nonempty   => decide
  case resolved   => unfold Resolved; decide
  case ascend     => decide
  case structural => decide
  case nodes      => decide +kernel
  case edges      => decide

theorem order_crossing : crossing.wiring.order = [0, 1, 2, 3] :=
  crossing.wiring.order_eq_iterate_step.trans <| by decide

theorem supported_crossing : crossing.Supported :=
  fun _ hv => by cases hv

theorem emits_crossing :
    ∃ p, (crossing.compile {} {} "crossing" "BTC").1 = .ok p ∧
      ∃ o ∈ ((p.after [.showing 110]).tickAt (.showing 130)).outcome, ∃ x ∈ o.signals,
        x.indicators.get? "mean" = some 130 := by
  rw [compile_of_wellFormed supported_crossing wellFormed_crossing]
  simp only [Compile.skeleton, order_hydrate_stamp wellFormed_crossing, order_crossing, bind,
    Except.bind]
  exact ⟨_, rfl, by decide +kernel⟩

end Graph

namespace Plan

theorem trail_crossing :
    ∃ p, (Graph.crossing.compile {} {} "crossing" "BTC").1 = .ok p ∧
      let before := p.after [.showing 110]
      ∃ o ∈ (before.tickAt (.showing 130)).outcome, ∃ x ∈ o.signals,
        x.indicators.get? "mean" = some 130 ∧
        ∃ done rest, p.order = done ++ x.node :: rest ∧
          before.Trail (Registry.stamp Graph.crossing Registry.firstVersion)
            (Moment.showing 130).surroundings o x done := by
  have ⟨p, hc, o, ho, x, hx, hv⟩ := Graph.emits_crossing
  have trail := trail_of_compile (Registry.migrate_new Graph.supported_crossing) hc
    [.showing 110] (.showing 130)
  exact ⟨p, hc, o, ho, x, hx, hv, trail o ho x hx⟩

end Plan

end SignalFlow
