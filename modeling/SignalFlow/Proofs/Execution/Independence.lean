import SignalFlow.Proofs.Execution.Agreement
import SignalFlow.Proofs.Execution.Report

/-!
What a node comes to does not depend on the order in which its plan runs, and not on anything that
happens outside of its ancestry: two runs that agree on what a node can see agree on the node, tick
after tick.
-/

open Relation

namespace SignalFlow

open Validation (ids)

-- A signal without what it records of other nodes.
def Signal.withoutIndicators (s : Signal) : Signal :=
  { s with indicators := ∅ }

-- A signal without what it records of other nodes and of the market.
def Signal.withoutRecords (s : Signal) : Signal :=
  { s with indicators := ∅, price := none }

namespace Surroundings

variable {s s' : Surroundings}

theorem signalAlike_withoutIndicators : s.SignalAlike Signal.withoutIndicators s :=
  fun _ _ _ => rfl

theorem signalAlike_withoutRecords (h : s.now = s'.now) :
    s.SignalAlike Signal.withoutRecords s' := by
  intro v kind indicators
  simp [Signal.withoutRecords, NodeView.signal, h]

end Surroundings

-- The outcomes differ in the order of their lists and in what `f` leaves out of signals, and in
-- nothing else.
structure Outcome.Agrees (f : Signal → Signal) (o o' : Outcome) : Prop where
  signals    : (o.signals.map f).Perm (o'.signals.map f)
  failures   : o.failures.Perm o'.failures
  skipped    : o.skipped.Perm o'.skipped
  indicators : o.indicators = o'.indicators
  mocked     : o.mocked.Perm o'.mocked

structure Progress.Agrees (f : Signal → Signal) (p q : Progress) : Prop where
  nodes    : p.plan.nodes.map (PlanNode.mapSignal f) = q.plan.nodes.map (PlanNode.mapSignal f)
  machines : p.plan.machines = q.plan.machines
  outcome  : p.outcome.Agrees f q.outcome

namespace Plan

variable {f : Signal → Signal} {p q p₀ q₀ : Plan} {part : String → Prop} {s s' : Surroundings}

section Abreast

theorem AgreeOn.tick (hp : p.Causal) (hq : q.Causal) (hc : p.Closed part) (h : p.AgreeOn part q)
    (ha : s.AgreeOn p part s') (hf : s.SignalAlike f s') :
    (p.tick s).plan.AgreeOn part (q.tick s').plan where
  setting       := by
    have bp := sameSetting_of_blank_eq (blank_tick hp s)
    have bq := sameSetting_of_blank_eq (blank_tick hq s')
    constructor
    case strategy => rw [bq.strategy, h.setting.strategy, bp.strategy]
    case symbol   => rw [bq.symbol, h.setting.symbol, bp.symbol]
    case routes   => rw [bq.routes, h.setting.routes, bp.routes]
  nodes         := by
    rw [nodes_reset_of_blank_eq (blank_tick hq s'), h.nodes,
      nodes_reset_of_blank_eq (blank_tick hp s)]
  machines _ hi := (alikeAt_tick hp hq hc h ha hf hi).machine

theorem Closed.congr (h : p.Closed part) (hb : q.blank = p.blank) : q.Closed part := by
  intro id n hi hn
  have ⟨m, hm, he⟩ := exists_dependencies_of_blank_eq hb hn
  exact he ▸ h id m hi hm

-- Two runs under way, which agree so far on a part that contains all its dependencies.
structure Abreast (part : String → Prop) (p₀ q₀ p q : Plan) : Prop where
  left   : p.blank = p₀.blank
  right  : q.blank = q₀.blank
  causal : p.Causal ∧ q.Causal
  closed : p.Closed part
  agree  : p.AgreeOn part q

theorem Abreast.tick (h : Abreast part p₀ q₀ p q) (ha : s.AgreeOn p₀ part s')
    (hf : s.SignalAlike f s') : Abreast part p₀ q₀ (p.tick s).plan (q.tick s').plan where
  left   := (blank_tick h.causal.left s).trans h.left
  right  := (blank_tick h.causal.right s').trans h.right
  causal := ⟨h.causal.left.congr <| blank_tick h.causal.left s,
    h.causal.right.congr <| blank_tick h.causal.right s'⟩
  closed := h.closed.congr <| blank_tick h.causal.left s
  agree  := h.agree.tick h.causal.left h.causal.right h.closed (ha.congr h.left) hf

theorem Abreast.alikeAt_tick (h : Abreast part p₀ q₀ p q) (ha : s.AgreeOn p₀ part s')
    (hf : s.SignalAlike f s') {id : String} (hi : part id) :
    (p.tick s).plan.AlikeAt f (q.tick s').plan id :=
  Plan.alikeAt_tick h.causal.left h.causal.right h.closed h.agree (ha.congr h.left) hf hi

-- Runs that start abreast stay so, and each pair of their ticks shows what two such ticks show.
theorem Abreast.run {motive : Progress → Progress → Prop} {moments moments' : List Moment}
    (h : Abreast part p₀ q₀ p₀ q₀)
    (tick : ∀ p q s s', Abreast part p₀ q₀ p q → s.AgreeOn p₀ part s' → s.SignalAlike f s' →
      motive (p.tick s) (q.tick s'))
    (hm : List.Forall₂ (fun m m' => m.surroundings.AgreeOn p₀ part m'.surroundings ∧
      m.surroundings.SignalAlike f m'.surroundings) moments moments')
    (hp : ∀ t ∈ p₀.run moments, t.outcome.isSome) (hq : ∀ t ∈ q₀.run moments', t.outcome.isSome) :
    List.Forall₂ (fun t t' => ∃ o ∈ t.outcome, ∃ o' ∈ t'.outcome,
      motive ⟨t.plan, o⟩ ⟨t'.plan, o'⟩) (p₀.run moments) (q₀.run moments') := by
  refine forall₂_run h (fun p q m m' h ⟨ha, hf⟩ he he' => ?_) hm hp hq
  have ⟨o, he⟩ := Option.isSome_iff_exists.mp he
  have ⟨o', he'⟩ := Option.isSome_iff_exists.mp he'
  have hn := h.tick ha hf
  have hc := tick p q _ _ h ha hf
  rw [tick_eq_of_tickAt he, tick_eq_of_tickAt he'] at hn hc
  exact ⟨hn, o, he, o', he', hc⟩

end Abreast

section Order

variable {order order' : List String} {o o' : Outcome}

section MapSignal

variable (n : PlanNode)

theorem failure?_mapSignal : (n.mapSignal f).failure? = n.failure? := by
  simp only [PlanNode.mapSignal, PlanNode.failure?]
  cases n.state <;> rfl

theorem isSkipped_mapSignal : (n.mapSignal f).isSkipped = n.isSkipped := by
  simp only [PlanNode.mapSignal, PlanNode.isSkipped]
  cases n.state <;> rfl

theorem signal?_mapSignal : (n.mapSignal f).signal? = n.signal?.map f := by
  simp only [PlanNode.mapSignal, PlanNode.signal?, NodeState.output?_mapSignal]
  cases n.state.output? <;> rfl

theorem indication?_mapSignal :
    (n.mapSignal f).indication? = n.indication?.map (NodeOutput.mapSignal f) := by
  simp only [PlanNode.mapSignal, PlanNode.indication?, NodeState.output?_mapSignal]
  cases n.state.output? <;> cases n.kind <;> rfl

theorem indicator?_mapSignal : (n.mapSignal f).indicator? = n.indicator? := by
  rw [PlanNode.indicator?, indication?_mapSignal, PlanNode.indicator?]
  cases n.indication? <;> rfl

theorem isMocked_mapSignal : (n.mapSignal f).isMocked = n.isMocked := by
  rw [PlanNode.isMocked, indication?_mapSignal, PlanNode.isMocked]
  cases n.indication? <;> rfl

end MapSignal

-- What does not look at the parts of signals that are left out is the same for alike nodes.
theorem AlikeAt.elim {α : Type} {g : Option PlanNode → α} {id : String} (h : p.AlikeAt f q id)
    (hg : ∀ n, g (n.map (PlanNode.mapSignal f)) = g n) :
    g (p.nodes.get? id) = g (q.nodes.get? id) := by
  rw [←hg, h.node, hg]

theorem Reports.agrees (h : p.Reports order o) (h' : q.Reports order' o')
    (ho : order.Perm order') (ha : ∀ id, p.AlikeAt f q id) : o.Agrees f o' where
  signals    := by
    have hm (p : Plan) id : (p.signal? id).map f =
        ((p.nodes.get? id).map (PlanNode.mapSignal f)).bind PlanNode.signal? := by
      rw [signal?]
      cases p.nodes.get? id
      case none   => rfl
      case some n => exact (signal?_mapSignal n).symm
    have hs : (fun id => (p.signal? id).map f) = fun id => (q.signal? id).map f := by
      funext id
      rw [hm, hm, (ha id).node]
    rw [h.signals, h'.signals, List.map_filterMap, List.map_filterMap, hs]
    exact ho.filterMap _
  failures   := by
    have hf : p.failure? = q.failure? := by
      funext id
      refine (ha id).elim (g := fun n => (n.bind PlanNode.failure?).map (id, ·)) fun n => ?_
      simp [Option.bind_map, failure?_mapSignal]
    rw [h.failures, h'.failures, hf]
    exact ho.filterMap _
  skipped    := by
    have hs : p.isSkipped = q.isSkipped := by
      funext id
      refine (ha id).elim (g := fun n => n.any PlanNode.isSkipped) fun n => ?_
      simp [Option.any_map, isSkipped_mapSignal]
    rw [h.skipped, h'.skipped, hs]
    exact ho.filter _
  indicators := by
    have hi : p.indicator? = q.indicator? := by
      funext id
      refine (ha id).elim (g := fun n => n.bind PlanNode.indicator?) fun n => ?_
      simp [Option.bind_map, indicator?_mapSignal]
    apply Dict.ext_get?
    intro id
    rw [h.indicators, h'.indicators, hi]
    simp only [ho.mem_iff]
  mocked     := by
    have hm : p.isMocked = q.isMocked := by
      funext id
      refine (ha id).elim (g := fun n => n.any PlanNode.isMocked) fun n => ?_
      simp [Option.any_map, isMocked_mapSignal]
    rw [h.mocked, h'.mocked, hm]
    exact ho.filter _

theorem Abreast.agrees_tick (h : Abreast (fun _ => True) p₀ q₀ p q)
    (ho : p₀.order.Perm q₀.order) (ha : s.AgreeOn p₀ (fun _ => True) s')
    (hf : s.SignalAlike f s') : (p.tick s).Agrees f (q.tick s') := by
  have alike id : (p.tick s).plan.AlikeAt f (q.tick s').plan id := h.alikeAt_tick ha hf trivial
  constructor
  case nodes    => exact Dict.ext_get? fun id => by simpa using (alike id).node
  case machines => exact Dict.ext_get? fun id => (alike id).machine
  case outcome  =>
    have ho : p.order.Perm q.order := by
      rwa [order_eq_of_blank_eq h.left, order_eq_of_blank_eq h.right]
    exact (reports_tick h.causal.left s).agrees (reports_tick h.causal.right s') ho alike

end Order

section Compile

variable {g m : Graph} {setup : Setup} {services : Services} {strategy symbol : String}
  {order order' : List String} {moments moments' : List Moment}

-- Only sources of volumes tell such ticks apart.
theorem reads_noon {v : NodeView} {kind : Kind} {volume volume' : Option Float}
    (h : kind ≠ .dataSource .volume) :
    v.reads kind (Moment.noon volume).surroundings =
      v.reads kind (Moment.noon volume').surroundings := by
  cases kind
  case indicator | condition | composition | action => rfl
  case dataSource kind =>
    cases kind
    case volume => exact absurd rfl h
    case price  =>
      simp only [NodeView.reads, Moment.noon, Dict.get?_insert]
      split <;> rfl

end Compile

end Plan

end SignalFlow
