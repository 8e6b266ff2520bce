import SignalFlow.Proofs.Plan.Links
import SignalFlow.Proofs.Schema.Registry
import SignalFlow.Proofs.Validation.Hydration

/-!
Compilation succeeds on the well-formed graphs and on no others, so it agrees with the check, and
its last three errors never occur.
-/

namespace SignalFlow

open Validation (ids)

-- The plan has the nodes, the order and the routes that the graph asks for.
structure Plan.Implements (p : Plan) (g : Graph) : Prop where
  linked : Compile.Linked g.nodes g.edges p.nodes
  order  : p.order = g.wiring.order.map g.idAt
  routes : p.routes = Compile.routes g

namespace Compile

variable {g m : Graph} {setup : Setup}

theorem exists_linked_nodes (hk : ∀ n ∈ g.nodes, ∃ d, n.Declared d) :
    ∃ d, g.nodes.foldlM addNode ∅ = .ok d ∧ Linked g.nodes [] d := by
  apply exists_foldlM_eq_ok (motive := fun done d => Linked done [] d) .init
  intro done n hn d h
  have ⟨_, hd⟩ := hk n hn
  exact h.addNode (hd.right ▸ Catalog.isSome_ofNodeType? _ hd.left)

theorem exists_linked_edges {d : Dict PlanNode} (hr : g.Resolved) (h : Linked g.nodes [] d) :
    ∃ d', g.edges.foldlM addEdge d = .ok d' ∧ Linked g.nodes g.edges d' := by
  apply exists_foldlM_eq_ok (motive := fun done d => Linked g.nodes done d) h
  intro done e he d h
  have ⟨hs, ht⟩ := hr e he
  exact h.addEdge (List.mem_map.mp hs) (List.mem_map.mp ht)

-- Where the search for cycles finds none, the order has a place for every node.
theorem order_eq_ok (h : g.wiring.cycles = []) :
    order g = .ok (g.wiring.order.map g.idAt) := by
  have hl : ¬g.wiring.order.length < g.nodes.length :=
    mt g.wiring.length_order_lt_iff.mp (not_not.mpr h)
  rw [order, if_neg hl]

theorem exists_skeleton (strategy symbol : String) (h : g.WellFormed) :
    ∃ p, skeleton strategy g symbol = .ok p ∧ p.Implements g := by
  have ⟨_, hn, hl⟩ := exists_linked_nodes h.known
  have ⟨_, he, hl⟩ := exists_linked_edges h.resolved hl
  have ho := order_eq_ok <| g.wiring.cycles_eq_nil_iff.mpr <|
    (Graph.acyclic_wiring_iff h.resolved).mpr h.acyclic
  simp only [skeleton, hn, he, ho, bind, Except.bind]
  exact ⟨_, rfl, hl, rfl, rfl⟩

theorem implements_equip {state : Plan × Services} {id : String} (h : state.1.Implements g) :
    (equip state id).1.Implements g := by
  have ⟨plan, services⟩ := state
  simp only [equip]
  split
  case h_1 => exact h
  case h_2 =>
    split
    case h_1 =>
      refine ⟨?_, h.order, h.routes⟩
      dsimp only
      apply Linked.modify h.linked
      · exact fun _ => rfl
      · exact fun _ hp => ⟨hp.mem, hp.kind, hp.dependencies, hp.dependents⟩
    case h_2 => exact ⟨h.linked, h.order, h.routes⟩
    case h_3 => exact h

theorem implements_foldl_equip {state : Plan × Services} {l : List String}
    (h : state.1.Implements g) : (l.foldl equip state).1.Implements g := by
  induction l generalizing state
  case nil          => exact h
  case cons id l hi => exact hi <| implements_equip h

theorem prepare_of_migrate (h : setup.registry.migrate g none = .ok m) :
    prepare setup g =
      if (m.validate setup.config).isValid then .ok m.hydrate
      else .error (.invalid (m.validate setup.config)) := by
  have hv : m.hydrate.validate setup.config = m.validate setup.config := by
    rw [Graph.validate, Graph.validate, Validation.issues_hydrate]
  simp only [prepare, h, hv]

end Compile

namespace Graph

theorem wellFormed_hydrate_iff {g : Graph} : g.hydrate.WellFormed ↔ g.WellFormed := by
  rw [←Validation.errorFree_issues {}, Validation.issues_hydrate, Validation.errorFree_issues]

section Compile

variable {g m : Graph} {setup : Setup} (services : Services) (strategy symbol : String)

theorem exists_implements_of_wellFormed (hm : setup.registry.migrate g none = .ok m)
    (hw : m.WellFormed) :
    ∃ plan, (g.compile setup services strategy symbol).1 = .ok plan ∧
      plan.Implements m.hydrate := by
  have hv := (m.isValid_validate_iff setup.config).mpr hw
  have ⟨_, hs, hi⟩ := Compile.exists_skeleton strategy symbol <| wellFormed_hydrate_iff.mpr hw
  simp only [compile, Compile.prepare_of_migrate hm, hv, if_true, hs]
  exact ⟨_, rfl, Compile.implements_foldl_equip hi⟩

theorem compile_of_not_wellFormed (hm : setup.registry.migrate g none = .ok m)
    (hw : ¬m.WellFormed) :
    (g.compile setup services strategy symbol).1 = .error (.invalid (m.validate setup.config)) := by
  have hv := mt (m.isValid_validate_iff setup.config).mp hw
  rw [compile, Compile.prepare_of_migrate hm, if_neg hv]

theorem compile_of_migrate_error {error : MigrationError}
    (hm : setup.registry.migrate g none = .error error) :
    (g.compile setup services strategy symbol).1 = .error (.migration error) := by
  rw [compile, Compile.prepare, hm]

end Compile

variable {g : Graph} {setup : Setup} {services : Services} {strategy symbol : String} {plan : Plan}

-- Whatever compiles is well-formed once it is migrated, and its plan is made of just that graph.
theorem exists_implements_of_compile
    (h : (g.compile setup services strategy symbol).1 = .ok plan) :
    ∃ m, setup.registry.migrate g none = .ok m ∧ m.WellFormed ∧ plan.Implements m.hydrate := by
  cases hm : setup.registry.migrate g none
  case error => cases (compile_of_migrate_error services strategy symbol hm).symm.trans h
  case ok m =>
    by_cases hw : m.WellFormed
    case neg => cases (compile_of_not_wellFormed services strategy symbol hm hw).symm.trans h
    case pos =>
      have ⟨_, hc, hi⟩ := exists_implements_of_wellFormed services strategy symbol hm hw
      cases hc.symm.trans h
      exact ⟨m, rfl, hw, hi⟩

theorem isOrder_hydrate_iff {order : List String} : g.hydrate.IsOrder order ↔ g.IsOrder order := by
  constructor
  case mp  => exact fun h => ⟨g.ids_hydrate ▸ h.perm, h.nodup, h.forward⟩
  case mpr => exact fun h => ⟨g.ids_hydrate ▸ h.perm, h.nodup, h.forward⟩

theorem isOrder_of_implements {p : Plan} (h : p.Implements g) (hw : g.WellFormed) :
    g.IsOrder p.order :=
  have ha := (acyclic_wiring_iff hw.resolved).mpr hw.acyclic
  h.order ▸ isOrder_wiring_order hw.distinct hw.resolved ha

theorem validate_stamp {version : String} {config : Config} :
    (Registry.stamp g version).validate config = g.validate config := rfl

theorem wellFormed_stamp_iff {version : String} :
    (Registry.stamp g version).WellFormed ↔ g.WellFormed := by
  rw [←isValid_validate_iff _ {}, validate_stamp, isValid_validate_iff]

-- A small strategy: to buy when the price is above a hundred.
def breakout : Graph where
  name  := "breakout"
  nodes := [
    { id := "price", nodeType := "price_source" },
    { id := "above", nodeType := "threshold_condition",
      parameters := Dict.empty.insert "threshold" (.num <| .int 100 <| by decide) },
    { id := "buy", nodeType := "buy_signal" }]
  edges := [⟨"price", "price", "above", "value"⟩, ⟨"above", "result", "buy", "trigger"⟩]

-- A check by evaluation: edges that lead from lower to higher ranks close no cycle.
theorem wellFormed_of_rank (rank : String → Nat) (nonempty : ¬g.nodes.isEmpty)
    (resolved : g.Resolved) (ascend : ∀ e ∈ g.edges, rank e.sourceNode < rank e.targetNode)
    (structural : Validation.ErrorFree (Validation.structureIssues g))
    (nodes : Validation.ErrorFree (g.nodes.flatMap (Validation.nodeIssues g)))
    (edges : Validation.ErrorFree (g.edges.flatMap (Validation.edgeIssues g))) :
    g.WellFormed := by
  have ha : g.wiring.Acyclic :=
    (acyclic_wiring_iff resolved).mpr fun id => not_transGen_feeds_of_lt rank ascend
  rw [←Validation.errorFree_issues {}, Validation.issues, if_neg nonempty]
  simp only [Validation.errorFree_append]
  exact ⟨⟨⟨⟨structural, nodes⟩, edges⟩, Validation.errorFree_logicIssues.mpr ha⟩,
    Validation.errorFree_practiceIssues⟩

theorem wellFormed_breakout : breakout.WellFormed := by
  apply wellFormed_of_rank fun id => ["price", "above", "buy"].idxOf id
  case nonempty   => decide
  case resolved   => unfold Resolved; decide
  case ascend     => decide
  case structural => decide
  case nodes      => decide +kernel
  case edges      => decide

theorem exists_compile (hs : g.Supported) (hw : g.WellFormed) (services : Services)
    (strategy symbol : String) :
    ∃ plan, (g.compile {} services strategy symbol).1 = .ok plan := by
  have hm : ({} : Setup).registry.migrate g none = .ok _ := Registry.migrate_new hs
  have ⟨plan, hc, _⟩ := exists_implements_of_wellFormed services strategy symbol hm <|
    wellFormed_stamp_iff.mpr hw
  exact ⟨plan, hc⟩

-- A graph that passes its check is compiled as it is, but for its version and its defaults.
theorem compile_of_wellFormed (hs : g.Supported) (hw : g.WellFormed) (config : Config)
    (services : Services) (strategy symbol : String) :
    g.compile { registry := .new, config } services strategy symbol =
      match Compile.skeleton strategy (Registry.stamp g Registry.firstVersion).hydrate symbol with
      | .error error => (.error error, services)
      | .ok plan     =>
        let equipped := plan.order.foldl Compile.equip (plan, services)
        (.ok equipped.1, equipped.2) := by
  have hm : Registry.new.migrate g none = .ok (Registry.stamp g Registry.firstVersion) :=
    Registry.migrate_new hs
  have hv := (isValid_validate_iff (Registry.stamp g Registry.firstVersion) config).mpr <|
    wellFormed_stamp_iff.mpr hw
  have hp : Compile.prepare { registry := .new, config } g =
      .ok (Registry.stamp g Registry.firstVersion).hydrate :=
    (Compile.prepare_of_migrate hm).trans <| if_pos hv
  cases hk : Compile.skeleton strategy (Registry.stamp g Registry.firstVersion).hydrate symbol <;>
    simp only [compile, hp, hk]

theorem order_hydrate_stamp (hw : g.WellFormed) (version : String) :
    Compile.order (Registry.stamp g version).hydrate = .ok (g.wiring.order.map g.idAt) := by
  have hw : (Registry.stamp g version).hydrate.WellFormed :=
    wellFormed_hydrate_iff.mpr <| wellFormed_stamp_iff.mpr hw
  have hc := (Wiring.cycles_eq_nil_iff _).mpr <| (acyclic_wiring_iff hw.resolved).mpr hw.acyclic
  rw [Compile.order_eq_ok hc, wiring_hydrate, idAt_hydrate]
  rfl

theorem exists_compile_breakout :
    ∃ plan, (breakout.compile {} {} "breakout" "BTC").1 = .ok plan :=
  exists_compile (fun v hv => by cases hv) wellFormed_breakout {} "breakout" "BTC"

-- A more patient one: to buy once the price has stayed there for a minute, and to give notice of it
-- if there is much trade at the time.
def vigil : Graph where
  name  := "vigil"
  nodes := [
    { id := "price", nodeType := "price_source" },
    { id := "above", nodeType := "threshold_condition",
      parameters := Dict.empty.insert "threshold" (.num <| .int 100 <| by decide) },
    { id := "held", nodeType := "duration_condition" },
    { id := "buy", nodeType := "buy_signal" },
    { id := "volume", nodeType := "volume_source" },
    { id := "busy", nodeType := "threshold_condition",
      parameters := Dict.empty.insert "threshold" (.num <| .int 5000 <| by decide) },
    { id := "note", nodeType := "alert_action" }]
  edges := [⟨"price", "price", "above", "value"⟩, ⟨"above", "result", "held", "condition"⟩,
    ⟨"held", "result", "buy", "trigger"⟩, ⟨"held", "result", "note", "trigger"⟩,
    ⟨"volume", "volume", "busy", "value"⟩, ⟨"busy", "result", "note", "trigger"⟩]

theorem wellFormed_vigil : vigil.WellFormed := by
  apply wellFormed_of_rank fun id =>
    ["price", "above", "held", "buy", "volume", "busy", "note"].idxOf id
  case nonempty   => decide
  case resolved   => unfold Resolved; decide
  case ascend     => decide
  case structural => decide
  case nodes      => decide +kernel
  case edges      => decide

theorem exists_compile_vigil :
    ∃ plan, (vigil.compile {} {} "vigil" "BTC").1 = .ok plan :=
  exists_compile (fun v hv => by cases hv) wellFormed_vigil {} "vigil" "BTC"

-- To buy and to give notice of it as soon as the price is above a hundred.
def alarm : Graph where
  name  := "alarm"
  nodes := [
    { id := "price", nodeType := "price_source" },
    { id := "above", nodeType := "threshold_condition",
      parameters := Dict.empty.insert "threshold" (.num <| .int 100 <| by decide) },
    { id := "held", nodeType := "duration_condition",
      parameters := Dict.empty.insert "duration_seconds" (.num <| .int 0 <| by decide) },
    { id := "buy", nodeType := "buy_signal" },
    { id := "note", nodeType := "alert_action" }]
  edges := [⟨"price", "price", "above", "value"⟩, ⟨"above", "result", "held", "condition"⟩,
    ⟨"held", "result", "buy", "trigger"⟩, ⟨"held", "result", "note", "trigger"⟩]

theorem wellFormed_alarm : alarm.WellFormed := by
  apply wellFormed_of_rank fun id => ["price", "above", "held", "buy", "note"].idxOf id
  case nonempty   => decide
  case resolved   => unfold Resolved; decide
  case ascend     => decide
  case structural => decide
  case nodes      => decide +kernel
  case edges      => decide

theorem supported_alarm : alarm.Supported :=
  fun _ hv => by cases hv

-- Whatever compiles runs in an order that respects its edges. Hops may have changed the graph
-- before; without hops it is the graph as it was given.
theorem isOrder_of_compile (h : (g.compile setup services strategy symbol).1 = .ok plan) :
    ∃ m, setup.registry.migrate g none = .ok m ∧ m.IsOrder plan.order ∧
      (setup.registry.hops = [] → g.IsOrder plan.order) := by
  have ⟨m, hm, hw, hi⟩ := exists_implements_of_compile h
  have ho := isOrder_hydrate_iff.mp <| isOrder_of_implements hi <| wellFormed_hydrate_iff.mpr hw
  refine ⟨m, hm, ho, fun hr => ?_⟩
  have ⟨_, he⟩ := Registry.exists_stamp_of_migrate hr hm
  rw [he] at ho
  exact ⟨ho.perm, ho.nodup, ho.forward⟩

theorem isOrder_breakout :
    ∃ plan, (breakout.compile {} {} "breakout" "BTC").1 = .ok plan ∧
      breakout.IsOrder plan.order := by
  have ⟨plan, hc⟩ := exists_compile_breakout
  have ⟨_, _, _, ho⟩ := isOrder_of_compile hc
  exact ⟨plan, hc, ho rfl⟩

-- What a compiler without hops makes of a graph.
inductive Verdict (g : Graph) (config : Config) : Except CompileError Plan → Prop
  | unsupported {v : String} (tells : g.metadata.get? schemaVersionKey = some (.str v))
      (unknown : v ≠ Registry.firstVersion) :
    Verdict g config (.error (.migration (.unsupportedVersion v)))
  | invalid (supported : g.Supported) (rejected : ¬(g.validate config).isValid) :
    Verdict g config (.error (.invalid (g.validate config)))
  | compiled (plan : Plan) (supported : g.Supported) (accepted : (g.validate config).isValid) :
    Verdict g config (.ok plan)

theorem verdict_compile_new (g : Graph) (config : Config) (services : Services)
    (strategy symbol : String) :
    g.Verdict config (g.compile { registry := .new, config } services strategy symbol).1 := by
  let setup : Setup := { registry := .new, config }
  by_cases hs : g.Supported
  case neg =>
    unfold Supported at hs
    push Not at hs
    have ⟨v, hv, hn⟩ := hs
    rw [compile_of_migrate_error services strategy symbol <| Registry.migrate_new_of_ne hv hn]
    exact .unsupported hv hn
  case pos =>
    have hm : setup.registry.migrate g none = .ok _ := Registry.migrate_new hs
    by_cases hw : g.WellFormed
    case neg =>
      rw [compile_of_not_wellFormed services strategy symbol hm <| mt wellFormed_stamp_iff.mp hw]
      exact .invalid hs <| mt (g.isValid_validate_iff config).mp hw
    case pos =>
      have ⟨plan, hc, _⟩ := exists_implements_of_wellFormed services strategy symbol hm <|
        wellFormed_stamp_iff.mpr hw
      rw [hc]
      exact .compiled plan hs <| (g.isValid_validate_iff config).mpr hw

-- With a new registry, a graph compiles exactly if its version is supported and its check has no
-- errors. Otherwise the version or the findings of the check are returned, and no other error: a
-- graph without cycles has an order for all of its nodes.
theorem compile_new (g : Graph) (config : Config) (services : Services) (strategy symbol : String) :
    let compiled := (g.compile { registry := .new, config } services strategy symbol).1
    ((∃ plan, compiled = .ok plan) ↔ g.Supported ∧ (g.validate config).isValid) ∧
    (∀ error, compiled = .error error →
      (∃ v, g.metadata.get? schemaVersionKey = some (.str v) ∧ v ≠ Registry.firstVersion ∧
        error = .migration (.unsupportedVersion v)) ∨
      (g.Supported ∧ ¬(g.validate config).isValid ∧ error = .invalid (g.validate config))) ∧
    (g.wiring.cycles = [] → g.wiring.order.Perm (List.range g.nodes.length)) := by
  intro compiled
  have ho (h : g.wiring.cycles = []) : g.wiring.order.Perm (List.range g.nodes.length) :=
    g.wiring.order_perm_range_iff.mpr <| g.wiring.cycles_eq_nil_iff.mp h
  have hv : g.Verdict config compiled := g.verdict_compile_new config services strategy symbol
  clear_value compiled
  cases hv
  case unsupported v hv hn =>
    have hs : ¬g.Supported := fun hs => hn (hs v hv)
    refine ⟨by simp [hs], ?_, ho⟩
    intro error he
    cases he
    exact .inl ⟨v, hv, hn, rfl⟩
  case invalid hs hr =>
    refine ⟨by simp [hr], ?_, ho⟩
    intro error he
    cases he
    exact .inr ⟨hs, hr, rfl⟩
  case compiled plan hs ha => exact ⟨by simp [hs, ha], by simp, ho⟩

end Graph

end SignalFlow
