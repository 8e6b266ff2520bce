import SignalFlow.Proofs.Execution.Run
import SignalFlow.Proofs.Plan.Causal

/-!
What one step of a tick does to the plan. The node whose turn it is enters a state, and its machine
may move; both depend on no more than the node may look at. Everything else stays as it is.
-/

namespace SignalFlow

def NodeState.ofResult : Except NodeError NodeOutput → NodeState
  | .ok output   => .completed output
  | .error error => .failed error

-- A machine stays as it is, or it makes one observation at the time of the tick.
theorem NodeView.run_machine (v : NodeView) (s : Surroundings) (kind : Kind)
    (machine : Option Machine) :
    (v.run s kind machine).2 = machine ∨ ∃ m input, machine = some m ∧
      (v.run s kind machine).2 = some (m.advance v.node input (.ofFloat s.now.toFloat)).1 := by
  have temporal (port : String) : ∀ r, v.runTemporal s port machine = .ok r →
      r.2 = machine ∨ ∃ m input, machine = some m ∧
        r.2 = some (m.advance v.node input (.ofFloat s.now.toFloat)).1 := by
    intro r hr
    simp only [runTemporal] at hr
    cases hb : v.boolean port
    case error e => rw [hb] at hr; cases hr
    case ok b =>
      rw [hb] at hr
      cases machine
      case none   => cases hr; exact .inl rfl
      case some m => cases hr; exact .inr ⟨m, b, rfl, rfl⟩
  cases kind
  case dataSource  => exact .inl rfl
  case indicator   => exact .inl rfl
  case composition => exact .inl rfl
  case action      => exact .inl rfl
  case condition kind =>
    cases kind
    case threshold => exact .inl rfl
    case range     => exact .inl rfl
    case duration | sequence =>
      simp only [run]
      split
      case h_1 b m hr => exact temporal _ (b, m) hr
      case h_2        => exact .inl rfl

namespace Plan

-- The plan without what ticks leave on it.
def blank (p : Plan) : Plan :=
  { p.reset with machines := ∅ }

variable {p q : Plan} {id : String} {n : PlanNode}

@[simp] theorem get?_reset : p.reset.nodes.get? id = (p.nodes.get? id).map PlanNode.reset := by
  simp [reset]

theorem reset_reset : p.reset.reset = p.reset := by
  have h : p.reset.reset.nodes = p.reset.nodes := by
    apply Dict.ext_get?
    intro k
    rw [get?_reset, get?_reset, Option.map_map]
    rfl
  exact congrArg (fun nodes => { p with nodes }) h

theorem blank_reset : p.reset.blank = p.blank :=
  congrArg (fun p => { p with machines := ∅ }) reset_reset

theorem blank_setState {state : NodeState} : (p.setState id state).blank = p.blank := by
  have h : (p.setState id state).reset.nodes = p.reset.nodes := by
    apply Dict.ext_get?
    intro k
    rw [get?_reset, get?_reset, setState, Dict.get?_modify, Option.map_map]
    congr 1
    funext n
    by_cases hk : k = id <;> simp [hk, PlanNode.enter, PlanNode.reset]
  exact congrArg (fun nodes => { p with nodes, machines := ∅ }) h

section Blank

variable (h : q.blank = p.blank)

include h

theorem order_eq_of_blank_eq : q.order = p.order :=
  (congrArg order h : q.blank.order = p.blank.order)

theorem strategy_eq_of_blank_eq : q.strategy = p.strategy :=
  (congrArg strategy h : q.blank.strategy = p.blank.strategy)

theorem symbol_eq_of_blank_eq : q.symbol = p.symbol :=
  (congrArg symbol h : q.blank.symbol = p.blank.symbol)

theorem routes_eq_of_blank_eq : q.routes = p.routes :=
  (congrArg routes h : q.blank.routes = p.blank.routes)

theorem nodes_reset_of_blank_eq : q.reset.nodes = p.reset.nodes :=
  (congrArg nodes h : q.blank.nodes = p.blank.nodes)

theorem exists_get?_of_blank_eq (hn : q.nodes.get? id = some n) :
    ∃ m, p.nodes.get? id = some m ∧ m.reset = n.reset := by
  have he : (q.nodes.get? id).map PlanNode.reset = (p.nodes.get? id).map PlanNode.reset := by
    rw [←get?_reset, nodes_reset_of_blank_eq h, get?_reset]
  rw [hn, Option.map_some] at he
  exact Option.map_eq_some_iff.mp he.symm

theorem exists_alike_of_blank_eq (hn : q.nodes.get? id = some n) :
    ∃ m, p.nodes.get? id = some m ∧ m.kind = n.kind ∧ m.node = n.node ∧
      m.dependencies = n.dependencies := by
  have ⟨m, hm, he⟩ := exists_get?_of_blank_eq h hn
  exact ⟨m, hm, (congrArg PlanNode.kind he : m.reset.kind = _),
    (congrArg PlanNode.node he : m.reset.node = _),
    (congrArg PlanNode.dependencies he : m.reset.dependencies = _)⟩

theorem exists_dependencies_of_blank_eq (hn : q.nodes.get? id = some n) :
    ∃ m, p.nodes.get? id = some m ∧ m.dependencies = n.dependencies := by
  have ⟨m, hm, _, _, hd⟩ := exists_alike_of_blank_eq h hn
  exact ⟨m, hm, hd⟩

-- Before a tick, plans that differ only in what ticks leave on them differ only in their machines.
theorem reset_eq_of_blank_eq (hm : q.machines = p.machines) : q.reset = p.reset :=
  calc
    q.reset = { q.blank with machines := q.machines } := rfl
    _       = { p.blank with machines := p.machines } := by rw [h, hm]

theorem Routed.congr (hr : p.Routed id n) : q.Routed id n := by
  intro route hm
  rw [routes_eq_of_blank_eq h] at hm
  exact hr route hm

theorem Causal.congr (hc : p.Causal) : q.Causal where
  nodup  := order_eq_of_blank_eq h ▸ hc.nodup
  mem id := by
    rw [order_eq_of_blank_eq h, hc.mem]
    constructor
    case mp  => exact fun ⟨_, hn⟩ => have ⟨m, hm, _⟩ := exists_get?_of_blank_eq h.symm hn; ⟨m, hm⟩
    case mpr => exact fun ⟨_, hn⟩ => have ⟨m, hm, _⟩ := exists_get?_of_blank_eq h hn; ⟨m, hm⟩
  after  := by
    intro done id rest n hs hn
    have ⟨m, hm, he⟩ := exists_dependencies_of_blank_eq h hn
    exact he ▸ hc.after done id rest m (order_eq_of_blank_eq h ▸ hs) hm
  routed := by
    intro id n hn route hr source hs
    have ⟨m, hm, he⟩ := exists_dependencies_of_blank_eq h hn
    exact he ▸ (hc.routed id m hm).congr h route hr source hs

end Blank

end Plan

namespace Progress

variable {p : Progress} {s : Surroundings} {id : String} {n : PlanNode}

-- The state that a node enters at its turn, and its machine afterwards.
def turn (p : Progress) (s : Surroundings) (id : String) (n : PlanNode) :
    NodeState × Option Machine :=
  match p.blocker? n with
  | some blocker => (.skipped (.blocked blocker), p.plan.machines.get? id)
  | none         =>
    let ran := (p.view id n).run s n.kind (p.plan.machines.get? id)
    (.ofResult ran.1, ran.2)

theorem turn_machine (hm : (p.turn s id n).2 = none) : p.plan.machines.get? id = none := by
  simp only [turn] at hm
  split at hm
  case h_1 => exact hm
  case h_2 =>
    cases (p.view id n).run_machine s n.kind (p.plan.machines.get? id)
    case inl h => exact h.symm.trans hm
    case inr h =>
      have ⟨_, _, _, h⟩ := h
      cases h.symm.trans hm

theorem step_of_get?_eq_none (h : p.plan.nodes.get? id = none) : p.step s id = (p, none) := by
  rw [step, h]

theorem plan_step (hn : p.plan.nodes.get? id = some n) :
    (p.step s id).1.plan =
      (p.keepMachine id (p.turn s id n).2).plan.setState id (p.turn s id n).1 := by
  simp only [step, hn, turn]
  cases p.blocker? n
  case some blocker =>
    cases hm : p.plan.machines.get? id
    case none   => rfl
    case some m => simp [keepMachine, skip, Dict.insert_of_get? hm]
  case none =>
    dsimp only
    split
    case h_1 output hr => rw [hr]; rfl
    case h_2 error hr  => rw [hr]; rfl

theorem get?_nodes_step (hn : p.plan.nodes.get? id = some n) {k : String} :
    (p.step s id).1.plan.nodes.get? k =
      (p.plan.nodes.get? k).map fun m => if k = id then m.enter (p.turn s id n).1 else m := by
  rw [plan_step hn, Plan.setState, Dict.get?_modify]
  cases (p.turn s id n).2 <;> rfl

theorem get?_machines_step (hn : p.plan.nodes.get? id = some n) {k : String} :
    (p.step s id).1.plan.machines.get? k =
      if k = id then (p.turn s id n).2 else p.plan.machines.get? k := by
  rw [plan_step hn, Plan.setState]
  cases hm : (p.turn s id n).2
  case some m => simp [keepMachine]
  case none   =>
    dsimp only [keepMachine]
    split
    case isTrue hk => rw [hk, turn_machine hm]
    case isFalse   => rfl

theorem blank_step : (p.step s id).1.plan.blank = p.plan.blank := by
  cases hn : p.plan.nodes.get? id
  case none   => rw [step_of_get?_eq_none hn]
  case some n =>
    rw [plan_step hn, Plan.blank_setState]
    cases (p.turn s id n).2 <;> rfl

end Progress

-- Ticks change nothing but states and machines, even if they break off.
theorem Plan.blank_tickAt (p : Plan) (m : Moment) : (p.tickAt m).plan.blank = p.blank := by
  have ⟨q, machines, hq, he, _⟩ := exists_of_tickAt (motive := (·.plan.blank = p.blank)) m
    blank_reset fun q id hq => Progress.blank_step.trans hq
  rw [he]
  exact hq

end SignalFlow
