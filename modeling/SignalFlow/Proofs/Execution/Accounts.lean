import SignalFlow.Proofs.Execution.Observations
import SignalFlow.Proofs.Execution.Report

/-!
A tick leaves two records of what happened, one in its outcome and one on the plan. They agree about
every node, and apart from them nothing has moved but the machines of nodes that completed.
-/

namespace SignalFlow

namespace PlanNode

-- The node came to an end at the first try, and it has a result or an error to show for it.
inductive Closed (n : PlanNode) : Prop
  | completed {output : NodeOutput} (state : n.state = .completed output)
      (result : n.output? = some output) (clean : n.error? = none)
  | failed {error : NodeError} (state : n.state = .failed error) (reason : n.error? = some error)
      (empty : n.output? = none)
  | skipped {error : NodeError} (state : n.state = .skipped error) (reason : n.error? = some error)
      (empty : n.output? = none)

variable {n : PlanNode} {output : NodeOutput} {error : NodeError}

theorem closed_of_completed (he : n.earlier = [.pending]) (hs : n.state = .completed output) :
    n.Closed :=
  .completed hs (by rw [output?, hs]; rfl) (by rw [error?, hs, he]; rfl)

theorem closed_of_failed (he : n.earlier = [.pending]) (hs : n.state = .failed error) :
    n.Closed :=
  .failed hs (by rw [error?, hs]; rfl) (by rw [output?, hs, he]; rfl)

theorem closed_of_skipped (he : n.earlier = [.pending]) (hs : n.state = .skipped error) :
    n.Closed :=
  .skipped hs (by rw [error?, hs]; rfl) (by rw [output?, hs, he]; rfl)

theorem closed_of_ended {p : Plan} (he : n.earlier = [.pending]) (h : p.Ended n) : n.Closed := by
  cases h
  case blocked hs _ _ _ => exact closed_of_skipped he hs
  case ran result hs _  =>
    cases result
    case ok output   => exact closed_of_completed he hs
    case error error => exact closed_of_failed he hs

theorem eq_of_indication? (h : n.indication? = some output) :
    ∃ kind, n.kind = .indicator kind ∧ n.state = .completed output := by
  obtain ⟨output', ho, h⟩ := Option.bind_eq_some_iff.mp h
  have hs := NodeState.eq_of_output? ho
  cases hk : n.kind
  case indicator kind => rw [hk] at h; cases h; exact ⟨kind, rfl, hs⟩
  case dataSource | condition | composition | action => rw [hk] at h; cases h

end PlanNode

-- The value of an indicator of the kind, given what was found of its series.
def Reading.value? (kind : IndicatorKind) : Reading → Option Float
  | .ready x => some x
  | .absent  => some (mockValue kind.name)
  | _        => none

-- A value is made up exactly if there is no feed that it could come from.
theorem NodeView.value_of_run {v : NodeView} {s : Surroundings} {kind : IndicatorKind}
    {machine : Option Machine} {output : NodeOutput}
    (hr : (v.run s (.indicator kind) machine).1 = .ok output) :
    (∃ x, output.values.get? "value" = some (.number x) ∧
      (s.readings (v.series kind)).value? kind = some x) ∧
    (output.mocked = true ↔ s.readings (v.series kind) = .absent) := by
  simp only [run, runIndicator, bind, Except.bind] at hr
  cases hx : v.number "price"
  case error e => rw [hx] at hr; cases hr
  case ok x    =>
    rw [hx] at hr
    cases hs : s.readings (v.series kind) <;> rw [hs] at hr <;> cases hr
    case ready  => exact ⟨⟨_, Dict.get?_insert .., rfl⟩, by simp [NodeOutput.single]⟩
    case absent => exact ⟨⟨_, Dict.get?_insert .., rfl⟩, by simp⟩

theorem readIndicator_eq_absent_iff {feed : Option IndicatorFeed} {timeout : Nat}
    {key : IndicatorKey} : readIndicator feed timeout key = .absent ↔ feed = none := by
  cases feed
  case none   => exact iff_of_true rfl rfl
  case some f =>
    refine iff_of_false ?_ nofun
    simp only [readIndicator, Option.elim_some, IndicatorFeed.read]
    split
    case isTrue  => exact nofun
    case isFalse => cases f.get? key <;> exact nofun

namespace Plan

-- An indicator that completed.
def isIndicated (p : Plan) (id : String) : Bool :=
  (p.nodes.get? id).any (·.indication?.isSome)

-- What a tick says of itself, and what it leaves behind. Every node is listed where it belongs, once
-- and in the order of execution. The nodes, their wiring and the rest of the plan are what they were
-- but for states and machines.
structure Accounts (before after : Plan) (services : Services) (now : Instant) (o : Outcome) :
    Prop where
  once       : before.order.Nodup
  every      : ∀ id, id ∈ before.order ↔ ∃ n, after.nodes.get? id = some n
  closed     : ∀ id n, after.nodes.get? id = some n → n.Closed
  failures   : o.failures = before.order.filterMap after.failure?
  skipped    : o.skipped = before.order.filter after.isSkipped
  indicators : ∀ id, o.indicators.get? id = after.indicator? id
  valued     : ∀ id, after.isIndicated id → ∃ x, after.indicator? id = some x
  mocked     : o.mocked =
    if services.feed.isNone then before.order.filter after.isIndicated else []
  frame      : after.blank = before.blank
  observed   : ∀ id n kind, after.nodes.get? id = some n → n.kind.machineKind? = some kind →
    after.isCompleted id → Observes now before after id n kind
  kept       : ∀ id, ¬(after.isTemporal id ∧ after.isCompleted id) →
    after.machines.get? id = before.machines.get? id

variable {p : Plan} {s : Surroundings} {id : String} {n : PlanNode} {output : NodeOutput}

-- An indicator that completed shows what it found of its series.
theorem value_of_tick (h : p.Causal) (hn : (p.tick s).plan.nodes.get? id = some n)
    (hi : n.indication? = some output) :
    ∃ kind x, n.kind = .indicator kind ∧ output.values.get? "value" = some (.number x) ∧
      n.indicator? = some x ∧
      let key := n.indicatorKey.getD (n.node.series (p.tick s).plan.symbol kind)
      (s.readings key).value? kind = some x ∧
        (output.mocked = true ↔ s.readings key = .absent) := by
  have ⟨kind, hk, hs⟩ := PlanNode.eq_of_indication? hi
  have ⟨indicators, ht, _⟩ := exists_turn_of_tick h hn
  have ⟨_, hr, _⟩ := Progress.run_of_turn (ht.symm.trans hs)
  rw [hk] at hr
  have ⟨⟨x, hx, hreading⟩, hm⟩ := NodeView.value_of_run hr
  refine ⟨kind, x, hk, hx, ?_, hreading, hm⟩
  rw [PlanNode.indicator?, hi, Option.bind_some, hx]
  rfl

variable {services : Services} {config : Config} {now : Instant} {snapshot : Snapshot}

theorem mocked_iff_of_tick (h : p.Causal) (hs : s = services.surroundings config now snapshot)
    (hn : (p.tick s).plan.nodes.get? id = some n) :
    n.isMocked = (services.feed.isNone && n.indication?.isSome) := by
  rw [PlanNode.isMocked]
  cases hi : n.indication?
  case none        => simp
  case some output =>
    obtain ⟨kind, _, _, _, _, _, hm⟩ := value_of_tick h hn hi
    have hr key : s.readings key = .absent ↔ services.feed = none := by
      rw [hs]
      exact readIndicator_eq_absent_iff
    have hm : output.mocked = services.feed.isNone :=
      Bool.eq_iff_iff.mpr <| (hm.trans <| hr _).trans Option.isNone_iff_eq_none.symm
    simp [hm]

theorem accounts_tick (h : p.Intact) (services : Services) (config : Config) (now : Instant)
    (snapshot : Snapshot) :
    let t := p.tick (services.surroundings config now snapshot)
    p.Accounts t.plan services now t.outcome := by
  intro t
  have hb : t.plan.blank = p.blank := blank_tick h.causal _
  have hc : t.plan.Causal := h.causal.congr hb
  have hr : t.plan.Reports p.order t.outcome := reports_tick h.causal _
  have every id : id ∈ p.order ↔ ∃ n, t.plan.nodes.get? id = some n :=
    order_eq_of_blank_eq hb ▸ hc.mem id
  constructor
  case once       => exact h.causal.nodup
  case every      => exact every
  case closed     =>
    intro id n hn
    have ⟨_, _, he, _⟩ := exists_turn_of_tick h.causal hn
    exact PlanNode.closed_of_ended he <| ended_tick h.causal hn
  case failures   => exact hr.failures
  case skipped    => exact hr.skipped
  case indicators =>
    intro id
    rw [hr.indicators]
    split
    case isTrue     => rfl
    case isFalse hm =>
      cases hn : t.plan.nodes.get? id
      case none   => rw [indicator?, hn]; rfl
      case some n => exact absurd ((every id).mpr ⟨n, hn⟩) hm
  case valued     =>
    intro id hi
    obtain ⟨n, hn, hi⟩ := (Option.any_eq_true ..).mp hi
    obtain ⟨output, ho⟩ := Option.isSome_iff_exists.mp hi
    obtain ⟨_, x, _, _, hx, _⟩ := value_of_tick h.causal hn ho
    exact ⟨x, by rw [indicator?, hn, Option.bind_some, hx]⟩
  case mocked     =>
    have hm id : t.plan.isMocked id = (services.feed.isNone && t.plan.isIndicated id) := by
      rw [isMocked, isIndicated]
      cases hn : t.plan.nodes.get? id
      case none   => simp
      case some n => exact mocked_iff_of_tick h.causal rfl hn
    rw [hr.mocked, List.filter_congr fun id _ => hm id]
    cases services.feed <;> simp
  case frame      => exact hb
  case observed   => exact fun id n kind hn hk hc => observes_tick h hn hk hc
  case kept       => exact fun id hn => get?_machines_tick h hn

-- Whatever a compiled plan has been through, the next tick gives full account of itself. It comes to
-- an end unless a machine would have to be kept for longer than time lasts.
theorem accounts_of_compile {g : Graph} {setup : Setup} {services : Services}
    {strategy symbol : String} {p : Plan}
    (hc : (g.compile setup services strategy symbol).1 = .ok p) (moments : List Moment)
    (config : Config) (services' : Services) (now : Instant) (snapshot : Snapshot) :
    let before := p.after moments
    let t := before.execute config services' now snapshot
    (∀ o ∈ t.outcome, before.Accounts t.plan services' now o) ∧
    ((∀ l ∈ services'.store, (StateStore.deadline? l.now config.stateTtl).isSome) →
      t.outcome.isSome) := by
  intro before t
  have intact : before.Intact := (Graph.intact_of_compile hc).after moments
  constructor
  case left  =>
    intro o ho
    have := accounts_tick intact services' config now snapshot
    rwa [tick_eq_of_execute ho] at this
  case right => exact fun h => Progress.isSome_outcome_runAll h

theorem accounts_vigil :
    ∃ p, (Graph.vigil.compile {} {} "vigil" "BTC").1 = .ok p ∧
      let before := p.after [.noon none]
      let t := before.execute {} {} ⟨1700000060, 0⟩ (Moment.noon none).surroundings.snapshot
      ∃ o, t.outcome = some o ∧ before.Accounts t.plan {} ⟨1700000060, 0⟩ o := by
  have ⟨p, hc⟩ := Graph.exists_compile_vigil
  have ⟨accounts, ends⟩ := accounts_of_compile hc [.noon none] {} {} ⟨1700000060, 0⟩
    (Moment.noon none).surroundings.snapshot
  have ⟨o, ho⟩ := Option.isSome_iff_exists.mp <| ends fun l hl => by cases hl
  exact ⟨p, hc, o, ho, accounts o ho⟩

end Plan

end SignalFlow
