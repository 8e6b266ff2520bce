import Mathlib.Data.List.Find
import SignalFlow.Proofs.Execution.Steps

/-!
What a whole tick does to the plan, said for each node without the order in which nodes run: the
node has taken one turn, and the turn can be read off the plan that the tick leaves.
-/

namespace SignalFlow

namespace Plan

-- Nodes that depend on `id` find the same in both plans.
structure Offers (p q : Plan) (id : String) : Prop where
  completed : p.isCompleted id = q.isCompleted id
  values    : ∀ port, p.valueAt? ⟨id, port⟩ = q.valueAt? ⟨id, port⟩

-- What a node looks at, apart from other nodes and its machine.
structure SameSetting (p q : Plan) : Prop where
  strategy : q.strategy = p.strategy
  symbol   : q.symbol = p.symbol
  routes   : q.routes = p.routes

variable {p q : Plan} {id : String} {n : PlanNode}

theorem sameSetting_of_blank_eq (h : q.blank = p.blank) : p.SameSetting q where
  strategy := strategy_eq_of_blank_eq h
  symbol   := symbol_eq_of_blank_eq h
  routes   := routes_eq_of_blank_eq h

theorem offers_of_get?_eq (h : p.nodes.get? id = q.nodes.get? id) : p.Offers q id where
  completed     := by rw [isCompleted, isCompleted, h]
  values _      := by rw [valueAt?, valueAt?, h]

theorem inputs_congr (hr : q.routes = p.routes) (hn : p.Routed id n)
    (hd : ∀ d ∈ n.dependencies.keys, p.Offers q d) : p.inputs id = q.inputs id := by
  rw [inputs, inputs, hr]
  congr 1
  apply List.map_congr_left
  intro route hm
  congr 1
  apply List.filterMap_congr
  intro source hs
  exact (hd _ <| hn route hm source hs).values source.port

-- The plan as it was when a node took its turn, as far as the node could see.
def atTurn (p : Plan) (machines : Dict Machine) (indicators : Dict Float) : Progress :=
  ⟨{ p with machines }, { indicators }⟩

-- The node has taken its turn, if it is there.
def SettledAt (s : Surroundings) (before after : Plan) (id : String) : Prop :=
  ∀ n, before.nodes.get? id = some n → ∃ indicators,
    let turn := (after.atTurn before.machines indicators).turn s id n
    after.nodes.get? id = some (n.enter turn.1) ∧ after.machines.get? id = turn.2

end Plan

namespace Progress

variable {p q : Progress} {s : Surroundings} {id : String} {n : PlanNode}

theorem blocker?_congr (hd : ∀ d ∈ n.dependencies.keys, p.plan.Offers q.plan d) :
    p.blocker? n = q.blocker? n :=
  List.find?_congr fun d hm => congrArg (!·) (hd d hm).completed

theorem view_congr (hs : p.plan.SameSetting q.plan) (hn : p.plan.Routed id n)
    (hd : ∀ d ∈ n.dependencies.keys, p.plan.Offers q.plan d) :
    q.view id n = { p.view id n with indicators := q.outcome.indicators } := by
  have hi := Plan.inputs_congr hs.routes hn hd
  rw [view, view, hi, hs.strategy, hs.symbol]

-- A turn depends on the dependencies of the node and on its own machine, and on nothing else.
theorem turn_congr (hs : p.plan.SameSetting q.plan) (hn : p.plan.Routed id n)
    (hd : ∀ d ∈ n.dependencies.keys, p.plan.Offers q.plan d)
    (hm : q.plan.machines.get? id = p.plan.machines.get? id)
    (hi : q.outcome.indicators = p.outcome.indicators) : q.turn s id n = p.turn s id n := by
  have hv : q.view id n = p.view id n := by rw [view_congr hs hn hd, hi]; rfl
  rw [turn, turn, blocker?_congr hd, hv, hm]

end Progress

namespace Plan

-- Part of the order is done. The rest is as it was before the tick.
structure Settling (s : Surroundings) (before : Plan) (done : List String) (after : Plan) :
    Prop where
  blank    : after.blank = before.blank
  settled  : ∀ id ∈ done, SettledAt s before after id
  nodes    : ∀ id ∉ done, after.nodes.get? id = before.nodes.get? id
  machines : ∀ id ∉ done, after.machines.get? id = before.machines.get? id

variable {s : Surroundings} {before : Plan} {done rest : List String} {id : String}

theorem Settling.step {p : Progress} (h : Settling s before done p.plan) (hc : before.Causal)
    (ho : before.order = done ++ id :: rest) :
    Settling s before (done ++ [id]) (p.step s id).1.plan := by
  have ⟨hid, n, hb⟩ := hc.next ho
  have hn : p.plan.nodes.get? id = some n := h.nodes id hid ▸ hb
  have blank : (p.step s id).1.plan.blank = p.plan.blank := Progress.blank_step
  have setting := sameSetting_of_blank_eq blank
  have same d (hd : d ∈ done) : p.plan.nodes.get? d = (p.step s id).1.plan.nodes.get? d := by
    have hne : d ≠ id := ne_of_mem_of_not_mem hd hid
    simp [Progress.get?_nodes_step hn, hne]
  constructor
  case blank    => exact blank.trans h.blank
  case settled  =>
    intro k hk m hm
    have hr : p.plan.Routed k m := (hc.routed k m hm).congr h.blank
    cases List.mem_append.mp hk
    case inl hk =>
      have ⟨indicators, hs, hma⟩ := h.settled k hk m hm
      have hne : k ≠ id := ne_of_mem_of_not_mem hk hid
      have ht : ((p.step s id).1.plan.atTurn before.machines indicators).turn s k m =
          (p.plan.atTurn before.machines indicators).turn s k m :=
        Progress.turn_congr ⟨setting.strategy, setting.symbol, setting.routes⟩ hr
          (fun d hd => offers_of_get?_eq <| same d <| hc.mem_done ho hk hm d hd) rfl rfl
      refine ⟨indicators, ?_⟩
      rw [ht, Progress.get?_nodes_step hn, Progress.get?_machines_step hn, if_neg hne, hs, hma]
      simp [hne]
    case inr hk =>
      cases List.mem_singleton.mp hk
      cases hb.symm.trans hm
      have ht : ((p.step s id).1.plan.atTurn before.machines p.outcome.indicators).turn s id n =
          p.turn s id n :=
        Progress.turn_congr ⟨setting.strategy, setting.symbol, setting.routes⟩ hr
          (fun d hd => offers_of_get?_eq <| same d <| hc.after done id rest n ho hm d hd)
          (h.machines id hid).symm rfl
      refine ⟨p.outcome.indicators, ?_⟩
      rw [ht, Progress.get?_nodes_step hn, Progress.get?_machines_step hn, hn]
      simp
  case nodes    =>
    intro k hk
    have ⟨hk, hne⟩ := not_or.mp <| mt List.mem_append.mpr hk
    rw [Progress.get?_nodes_step hn, h.nodes k hk]
    simp [mt List.mem_singleton.mpr hne]
  case machines =>
    intro k hk
    have ⟨hk, hne⟩ := not_or.mp <| mt List.mem_append.mpr hk
    rw [Progress.get?_machines_step hn, if_neg (mt List.mem_singleton.mpr hne), h.machines k hk]

theorem Settling.foldl {p : Progress} (h : Settling s before done p.plan) (hc : before.Causal)
    (ho : before.order = done ++ rest) :
    Settling s before before.order (rest.foldl (fun p id => (p.step s id).1) p).plan := by
  induction rest generalizing done p
  case nil             => exact ho ▸ (List.append_nil done).symm ▸ h
  case cons id rest hi => exact hi (h.step hc ho) (by simpa using ho)

variable {p : Plan} {n : PlanNode}

theorem settling_tick (h : p.Causal) (s : Surroundings) :
    Settling s p.reset p.order (p.tick s).plan := by
  have hi : Settling s p.reset [] p.reset := by
    constructor
    case blank    => rfl
    case settled  => simp
    case nodes    => simp
    case machines => simp
  exact hi.foldl (p := { plan := p.reset }) (h.congr blank_reset) rfl

theorem settledAt_tick (h : p.Causal) (s : Surroundings) (id : String) :
    SettledAt s p.reset (p.tick s).plan id := by
  intro n hn
  have ⟨m, hm, _⟩ := exists_get?_of_blank_eq blank_reset hn
  exact (settling_tick h s).settled id ((h.mem id).mpr ⟨m, hm⟩) n hn

-- The turn of a node, said of the node as the tick leaves it.
theorem exists_turn_of_tick (h : p.Causal) (hn : (p.tick s).plan.nodes.get? id = some n) :
    ∃ indicators, let turn := ((p.tick s).plan.atTurn p.machines indicators).turn s id n
      n.state = turn.1 ∧ n.earlier = [.pending] ∧ (p.tick s).plan.machines.get? id = turn.2 := by
  have ⟨m, hm, _⟩ := exists_get?_of_blank_eq (settling_tick h s).blank hn
  have ⟨indicators, hs, hk⟩ := settledAt_tick h s id m hm
  have ⟨_, _, he⟩ := Option.map_eq_some_iff.mp <| get?_reset.symm.trans hm
  cases hn.symm.trans hs
  exact ⟨indicators, rfl, he ▸ rfl, hk⟩

theorem blank_tick (h : p.Causal) (s : Surroundings) : (p.tick s).plan.blank = p.blank :=
  (settling_tick h s).blank.trans blank_reset

-- A tick that comes to an end is one in which nothing depends on the store.
theorem tick_eq_of_tickAt {m : Moment} {o : Outcome} (h : (p.tickAt m).outcome = some o) :
    p.tick m.surroundings = ⟨(p.tickAt m).plan, o⟩ :=
  (Progress.runAll_eq_foldl h).symm

end Plan

end SignalFlow
