import SignalFlow.Proofs.Execution.Handlers
import SignalFlow.Proofs.Execution.Run

/-!
Nodes of a compiled plan never find fault with their inputs. What a node of a well-typed plan has put
on its port is of the right type, whatever ran before, so the next node is fed.
-/

namespace SignalFlow

-- What may become of a node of the kind in a tick.
def Kind.Permits (kind : Kind) : NodeState → Prop
  | .completed output => kind.Gives output
  | .failed error     => kind.MayFail error
  | _                 => True

theorem PlanNode.output?_of_completed {n : PlanNode} {output : NodeOutput}
    (h : n.state = .completed output) : n.output? = some output := by
  rw [output?, h]
  rfl

namespace Plan

variable {p q : Plan} {id : String} {n : PlanNode} {port : Port} {r : PortRef}

theorem WellTyped.congr (h : p.WellTyped) (hs : q.shape? = p.shape?) (hr : q.routes = p.routes) :
    q.WellTyped := by
  intro id kind dependencies port
  rw [hs, hr]
  intro hid hp
  have ⟨sources, h, hq, hf⟩ := h id kind dependencies port hid hp
  exact ⟨sources, h, hq, fun r hm => ⟨(hf r hm).after, hs ▸ (hf r hm).source⟩⟩

@[simp] theorem shape?_reset : p.reset.shape? = p.shape? := by
  funext id
  simp [shape?, reset, PlanNode.reset, Function.comp_def]

theorem get?_setState {state : NodeState} {k : String} :
    (p.setState id state).nodes.get? k =
      (p.nodes.get? k).map fun n => if k = id then n.enter state else n := by
  simp [setState]

@[simp] theorem shape?_setState {state : NodeState} : (p.setState id state).shape? = p.shape? := by
  funext k
  simp only [shape?, get?_setState, Option.map_map]
  congr 1
  funext n
  by_cases hk : k = id <;> simp [hk, PlanNode.enter]

structure Sound (p : Plan) : Prop where
  typed  : p.WellTyped
  states : ∀ id n, p.nodes.get? id = some n → n.kind.Permits n.state

theorem Sound.setState {state : NodeState} (h : p.Sound)
    (hs : ∀ n, p.nodes.get? id = some n → n.kind.Permits state) : (p.setState id state).Sound where
  typed  := h.typed.congr shape?_setState rfl
  states := by
    intro k n hn
    rw [get?_setState] at hn
    have ⟨m, hm, he⟩ := Option.map_eq_some_iff.mp hn
    rw [←he]
    split
    case isTrue hk => exact hs m (hk ▸ hm)
    case isFalse   => exact h.states k m hm

theorem sound_reset (h : p.WellTyped) : p.reset.Sound where
  typed  := h.congr shape?_reset rfl
  states := by
    intro id n hn
    have ⟨m, hm, he⟩ := Option.map_eq_some_iff.mp <| (Dict.get?_map ..).symm.trans hn
    exact he ▸ trivial

theorem isCompleted_iff :
    p.isCompleted id ↔ ∃ n output, p.nodes.get? id = some n ∧ n.state = .completed output := by
  have hs (s : NodeState) : s.isCompleted ↔ ∃ output, s = .completed output := by
    cases s <;> simp [NodeState.isCompleted, NodeState.output?]
  simp [isCompleted, Option.any_eq_true, hs]

-- A source that completed has put a value on the route, and the value fits.
theorem Sound.exists_valueAt? {dependencies : NameSet} (h : p.Sound)
    (hf : p.Feeds dependencies port r) (hc : p.isCompleted r.node) :
    ∃ v, p.valueAt? r = some v ∧ port.dataType.Carries v := by
  obtain ⟨kind, _, hs, hp, hfits⟩ := hf.source
  obtain ⟨n, output, hn, hst⟩ := isCompleted_iff.mp hc
  have hk : n.kind = kind := by
    rw [shape?, hn] at hs
    exact congrArg Prod.fst <| Option.some.inj hs
  have hg : n.kind.Gives output := by
    have := h.states r.node n hn
    rwa [hst] at this
  obtain ⟨v, hv, hc⟩ := hg
  refine ⟨v, ?_, hfits.carries (hk ▸ hc)⟩
  simp [valueAt?, hn, PlanNode.output?_of_completed hst, hp, ←hk, hv]

end Plan

namespace Progress

variable {p : Progress} {id : String} {n : PlanNode} {s : Surroundings}

theorem isCompleted_of_blocker? (h : p.blocker? n = none) :
    ∀ d ∈ n.dependencies.keys, p.plan.isCompleted d := by
  simpa [blocker?] using h

theorem fed_view (h : p.plan.Sound) (hn : p.plan.nodes.get? id = some n)
    (hb : p.blocker? n = none) : (p.view id n).Fed n.kind := by
  intro port hp
  have hs : p.plan.shape? id = some (n.kind, n.dependencies) := by
    rw [Plan.shape?, hn, Option.map_some]
  obtain ⟨sources, hr, hq, hf⟩ := h.typed id _ _ port hs hp
  have hv : (p.view id n).values port.name = sources.filterMap p.plan.valueAt? := by
    simp [NodeView.values, view, Plan.inputs, hr, Dict.ofList]
  have hc r (hm : r ∈ sources) :=
    h.exists_valueAt? (hf r hm) <| isCompleted_of_blocker? hb _ (hf r hm).after
  rw [hv]
  constructor
  case left =>
    intro x hx
    obtain ⟨r, hm, hx⟩ := List.mem_filterMap.mp hx
    obtain ⟨v, hv, hc⟩ := hc r hm
    cases hx.symm.trans hv
    exact hc
  case right =>
    intro hreq
    obtain ⟨r, l, hl⟩ := List.exists_cons_of_ne_nil (hq hreq)
    obtain ⟨v, hv, _⟩ := hc r (hl ▸ .head _)
    exact List.ne_nil_of_mem <| List.mem_filterMap.mpr ⟨r, hl ▸ .head _, hv⟩

-- A failure that was recorded is one that the node may have.
structure Sound (p : Progress) : Prop where
  plan     : p.plan.Sound
  failures : ∀ f ∈ p.outcome.failures, ∃ kind dependencies,
    p.plan.shape? f.1 = some (kind, dependencies) ∧ kind.MayFail f.2

theorem keepMachine_nodes {machine : Option Machine} :
    (p.keepMachine id machine).plan.nodes = p.plan.nodes := by
  cases machine <;> rfl

namespace Sound

theorem skip (h : p.Sound) (id blocker : String) : (p.skip id blocker).Sound where
  plan     := h.plan.setState fun _ _ => trivial
  failures := by simpa [Progress.skip] using h.failures

theorem keepMachine (h : p.Sound) (id : String) (machine : Option Machine) :
    (p.keepMachine id machine).Sound := by
  cases machine
  case none   => exact h
  case some m => exact ⟨⟨h.plan.typed.congr rfl rfl, h.plan.states⟩, h.failures⟩

theorem complete {output : NodeOutput} (h : p.Sound) (hn : p.plan.nodes.get? id = some n)
    (ho : n.kind.Gives output) : (p.complete id n.kind output).Sound where
  plan     := h.plan.setState fun m hm => by cases hn.symm.trans hm; exact ho
  failures := by
    have hf : (p.complete id n.kind output).outcome.failures = p.outcome.failures := by
      cases hk : n.kind <;> simp [Progress.complete, noteIndicator]
    have hs : (p.complete id n.kind output).plan.shape? = p.plan.shape? := Plan.shape?_setState
    rw [hf, hs]
    exact h.failures

theorem fail {error : NodeError} (h : p.Sound) (hn : p.plan.nodes.get? id = some n)
    (he : n.kind.MayFail error) : (p.fail id error).Sound where
  plan     := h.plan.setState fun m hm => by cases hn.symm.trans hm; exact he
  failures := by
    intro f hf
    simp only [Progress.fail, Plan.shape?_setState] at hf ⊢
    cases List.mem_append.mp hf
    case inl hf => exact h.failures f hf
    case inr hf =>
      cases List.mem_singleton.mp hf
      exact ⟨n.kind, n.dependencies, by rw [Plan.shape?, hn, Option.map_some], he⟩

theorem step (h : p.Sound) (s : Surroundings) (id : String) : (p.step s id).1.Sound := by
  unfold Progress.step
  split
  case h_1 => exact h
  case h_2 n hn =>
    split
    case h_1 blocker _ => exact h.skip id blocker
    case h_2 hb =>
      have hy := NodeView.run_yields s (p.plan.machines.get? id) <| fed_view h.plan hn hb
      have hk := h.keepMachine id ((p.view id n).run s n.kind (p.plan.machines.get? id)).2
      rw [←keepMachine_nodes] at hn
      dsimp only
      split
      case h_1 output ho =>
        rw [ho] at hy
        exact hk.complete hn hy
      case h_2 error he =>
        rw [he] at hy
        exact hk.fail hn hy

end Sound

end Progress

namespace Plan

variable {p : Plan}

-- A tick leaves the plan sound as far as it got, and blames no node for its inputs.
theorem sound_tickAt (h : p.WellTyped) (m : Moment) :
    (p.tickAt m).plan.Sound ∧ ∀ o ∈ (p.tickAt m).outcome, ∀ f ∈ o.failures,
      ∃ kind dependencies, (p.tickAt m).plan.shape? f.1 = some (kind, dependencies) ∧
        kind.MayFail f.2 := by
  have hi : Progress.Sound { plan := p.reset } := ⟨sound_reset h, by simp⟩
  have ⟨q, machines, hq, hp, ho⟩ := exists_of_tickAt m hi fun _ id hq => hq.step m.surroundings id
  rw [hp]
  constructor
  case left  => exact ⟨hq.plan.typed.congr rfl rfl, hq.plan.states⟩
  case right => exact fun o hm => ho o hm ▸ hq.failures

-- In a compiled plan, whatever it meets from tick to tick, only data sources fail, for want of data,
-- and indicators, for want of a value in time.
theorem mayFail_of_compile {g : Graph} {setup : Setup} {services : Services}
    {strategy symbol : String} (h : (g.compile setup services strategy symbol).1 = .ok p)
    (moments : List Moment) :
    ∀ t ∈ p.run moments,
      (∀ o ∈ t.outcome, ∀ f ∈ o.failures,
        ∃ n, t.plan.nodes.get? f.1 = some n ∧ n.kind.MayFail f.2) ∧
      (∀ id n error, t.plan.nodes.get? id = some n → n.state = .failed error →
        n.kind.MayFail error) := by
  have ⟨m, _, hw, hi⟩ := Graph.exists_implements_of_compile h
  have ht := hi.wellTyped <| Graph.wellFormed_hydrate_iff.mpr hw
  intro t hm
  have ⟨q, m, hq, he⟩ := exists_of_mem_run ht (fun _ m hq => (sound_tickAt hq m).left.typed) hm
  have ⟨hs, hf⟩ := he ▸ sound_tickAt hq m
  constructor
  case left =>
    intro o ho f hm
    have ⟨kind, dependencies, hk, hmay⟩ := hf o ho f hm
    have ⟨n, hn, hk⟩ := Option.map_eq_some_iff.mp hk
    cases hk
    exact ⟨n, hn, hmay⟩
  case right =>
    intro id n error hn hst
    have := hs.states id n hn
    rwa [hst] at this

theorem mayFail_breakout :
    ∃ p, (Graph.breakout.compile {} {} "breakout" "BTC").1 = .ok p ∧
      ∀ moments, ∀ t ∈ p.run moments, ∀ o ∈ t.outcome, ∀ f ∈ o.failures,
        ∃ n, t.plan.nodes.get? f.1 = some n ∧ n.kind.MayFail f.2 := by
  have ⟨p, hc⟩ := Graph.exists_compile_breakout
  exact ⟨p, hc, fun moments t ht => (mayFail_of_compile hc moments t ht).left⟩

end Plan

end SignalFlow
