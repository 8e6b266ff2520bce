import SignalFlow.Proofs.Execution.Settled
import SignalFlow.Proofs.Execution.Soundness

/-!
How far a failure reaches. A node looks no further than its dependencies, and yet after a tick the
skipped nodes are exactly those that a path leads to from a node that failed.
-/

open Relation

namespace SignalFlow

open Validation (ids)

namespace Plan

-- After a tick the node knows how its dependencies ended: either it was blocked by the first of
-- them, by name, that did not complete, or all of them completed and it ran.
inductive Ended (p : Plan) (n : PlanNode) : Prop
  | blocked {d : String} (state : n.state = .skipped (.blocked d)) (mem : d ∈ n.dependencies.keys)
      (incomplete : ¬p.isCompleted d)
      (least : ∀ d' ∈ n.dependencies.keys, ¬p.isCompleted d' → d ≤ d')
  | ran {result : Except NodeError NodeOutput} (state : n.state = .ofResult result)
      (completed : ∀ d ∈ n.dependencies.keys, p.isCompleted d)

def HasFailed (p : Plan) (id : String) : Prop :=
  ∃ n error, p.nodes.get? id = some n ∧ n.state = .failed error

def WasSkipped (p : Plan) (id : String) : Prop :=
  ∃ n error, p.nodes.get? id = some n ∧ n.state = .skipped error

variable {p : Plan} {g : Graph} {id d : String} {n : PlanNode}

theorem ended_turn {x : Progress} {s : Surroundings} {m : PlanNode} (hx : x.plan.nodes = p.nodes)
    (hd : m.dependencies = n.dependencies) (hs : n.state = (x.turn s id m).1) : p.Ended n := by
  have hc d : x.plan.isCompleted d = p.isCompleted d := by rw [isCompleted, hx, isCompleted]
  rw [Progress.turn] at hs
  split at hs
  case h_1 blocker hb =>
    obtain ⟨hm, hi, hl⟩ := Dict.least_of_find?_keys hb
    simp only [hc, hd, Bool.not_eq_true'] at hm hi hl
    exact .blocked hs hm (by simp [hi]) fun d hm hi => hl d hm (by simpa using hi)
  case h_2 hb =>
    refine .ran hs fun d hm => ?_
    simpa [hc] using Progress.isCompleted_of_blocker? hb d (hd ▸ hm)

theorem ended_tick (h : p.Causal) {s : Surroundings} (hn : (p.tick s).plan.nodes.get? id = some n) :
    (p.tick s).plan.Ended n := by
  have ⟨indicators, hs, _⟩ := exists_turn_of_tick h hn
  exact ended_turn (x := (p.tick s).plan.atTurn p.machines indicators) rfl rfl hs

theorem HasFailed.not_isCompleted (h : p.HasFailed id) : ¬p.isCompleted id := by
  have ⟨n, error, hn, hs⟩ := h
  simp [isCompleted_iff, hn, hs]

theorem WasSkipped.not_isCompleted (h : p.WasSkipped id) : ¬p.isCompleted id := by
  have ⟨n, error, hn, hs⟩ := h
  simp [isCompleted_iff, hn, hs]

-- All nodes ended, and they depend on what feeds them.
structure Finished (p : Plan) (g : Graph) : Prop where
  causal       : p.Causal
  ended        : ∀ id n, p.nodes.get? id = some n → p.Ended n
  dependencies : ∀ id n, p.nodes.get? id = some n →
    ∀ d, d ∈ n.dependencies.keys ↔ g.Feeds d id

namespace Finished

theorem failed_or_skipped (h : p.Finished g) (hn : p.nodes.get? id = some n)
    (hi : ¬p.isCompleted id) : p.HasFailed id ∨ p.WasSkipped id := by
  cases h.ended id n hn
  case blocked hs _ _ _ => exact .inr ⟨n, _, hn, hs⟩
  case ran result hs _  =>
    cases result
    case error e   => exact .inl ⟨n, e, hn, hs⟩
    case ok output => exact absurd (isCompleted_iff.mpr ⟨n, output, hn, hs⟩) hi

theorem exists_incomplete_of_skipped (h : p.Finished g) (hs : p.WasSkipped id) :
    ∃ d, g.Feeds d id ∧ (p.HasFailed d ∨ p.WasSkipped d) := by
  have ⟨n, error, hn, hs⟩ := hs
  cases h.ended id n hn
  case ran result hr _ => cases result <;> cases hr.symm.trans hs
  case blocked d _ hd hc _ =>
    have ⟨m, hm⟩ := h.causal.exists_dependency hn hd
    exact ⟨d, (h.dependencies id n hn d).mp hd, h.failed_or_skipped hm hc⟩

theorem skipped_of_feeds (h : p.Finished g) (hn : p.nodes.get? id = some n) (hf : g.Feeds d id)
    (hi : ¬p.isCompleted d) : p.WasSkipped id := by
  cases h.ended id n hn
  case blocked hs _ _ _ => exact ⟨n, _, hn, hs⟩
  case ran hc           => exact absurd (hc d <| (h.dependencies id n hn d).mpr hf) hi

-- Along the order, every skipped node inherits a failure.
theorem exists_failed_of_skipped (h : p.Finished g) (hs : p.WasSkipped id) :
    ∃ f, p.HasFailed f ∧ TransGen g.Feeds f id := by
  let Inherits id := p.WasSkipped id → ∃ f, p.HasFailed f ∧ TransGen g.Feeds f id
  suffices hi : ∀ id ∈ p.order, Inherits id by
    have ⟨n, _, hn, _⟩ := hs
    exact hi id ((h.causal.mem id).mpr ⟨n, hn⟩) hs
  refine h.causal.induction (motive := Inherits) ?_
  intro id n hn hi hs
  have ⟨d, hf, hd⟩ := h.exists_incomplete_of_skipped hs
  cases hd
  case inl hd => exact ⟨d, hd, .single hf⟩
  case inr hd =>
    have ⟨f, hfail, ht⟩ := hi d ((h.dependencies id n hn d).mpr hf) hd
    exact ⟨f, hfail, ht.tail hf⟩

-- Along a path, every node passes a failure on.
theorem skipped_of_failed (h : p.Finished g) {f : String} (hf : p.HasFailed f)
    (ht : TransGen g.Feeds f id) (hn : p.nodes.get? id = some n) : p.WasSkipped id := by
  induction ht generalizing n
  case single b hb => exact h.skipped_of_feeds hn hb hf.not_isCompleted
  case tail b c _ hb hi =>
    refine h.skipped_of_feeds hn hb fun hc => ?_
    have ⟨m, _, hm, _⟩ := isCompleted_iff.mp hc
    exact (hi hm).not_isCompleted hc

theorem skipped_iff (h : p.Finished g) (hn : p.nodes.get? id = some n) :
    p.WasSkipped id ↔ ∃ f, p.HasFailed f ∧ TransGen g.Feeds f id := by
  constructor
  case mp  => exact h.exists_failed_of_skipped
  case mpr => exact fun ⟨f, hf, ht⟩ => h.skipped_of_failed hf ht hn

end Finished

-- What a tick makes of a node: it is skipped exactly if a failure reaches it, for the first of its
-- dependencies that did not complete; if not, it ran, and how it ended is its own affair.
structure Isolated (p : Plan) (g : Graph) (id : String) (n : PlanNode) : Prop where
  skipped      : (∃ error, n.state = .skipped error) ↔ ∃ f, p.HasFailed f ∧ TransGen g.Feeds f id
  otherwise    : (∃ error, n.state = .skipped error) ∨ (∃ output, n.state = .completed output) ∨
    ∃ error, n.state = .failed error ∧ n.kind.MayFail error
  blocked      : ∀ error, n.state = .skipped error → ∃ d ∈ n.dependencies.keys,
    error = .blocked d ∧ ¬p.isCompleted d ∧
      ∀ d' ∈ n.dependencies.keys, ¬p.isCompleted d' → d ≤ d'
  failed       : ∀ error, n.state = .failed error → ∀ d ∈ n.dependencies.keys, p.isCompleted d
  dependencies : ∀ d, d ∈ n.dependencies.keys ↔ g.Feeds d id

theorem Finished.isolated (h : p.Finished g) (hs : p.Sound) (hn : p.nodes.get? id = some n) :
    p.Isolated g id n where
  skipped      := by
    rw [←h.skipped_iff hn, WasSkipped]
    simp [hn]
  otherwise    := by
    have hm := hs.states id n hn
    cases h.ended id n hn
    case blocked hs _ _ _ => exact .inl ⟨_, hs⟩
    case ran result hr _  =>
      cases result
      case ok output => exact .inr <| .inl ⟨output, hr⟩
      case error e   => rw [hr] at hm; exact .inr <| .inr ⟨e, hr, hm⟩
  blocked      := by
    intro error he
    cases h.ended id n hn
    case blocked d hs hd hi hl =>
      cases hs.symm.trans he
      exact ⟨d, hd, rfl, hi, hl⟩
    case ran result hr _ => cases result <;> cases hr.symm.trans he
  failed       := by
    intro error he
    cases h.ended id n hn
    case blocked hs _ _ _ => cases hs.symm.trans he
    case ran hc           => exact hc
  dependencies := h.dependencies id n hn

theorem Implements.finished_tick {q : Plan} (h : p.Implements g) (hw : g.WellFormed)
    (hb : q.blank = p.blank) (s : Surroundings) : (q.tick s).plan.Finished g := by
  have hc : q.Causal := (h.causal hw <| Graph.isOrder_of_implements h hw).congr hb
  have ht : (q.tick s).plan.blank = q.blank := blank_tick hc s
  constructor
  case causal       => exact hc.congr ht
  case ended        => exact fun id n hn => ended_tick hc hn
  case dependencies =>
    intro id n hn d
    have ⟨m, hm, he⟩ := exists_dependencies_of_blank_eq (ht.trans hb) hn
    rw [←he, h.mem_dependencies_iff hm]

-- In every tick of a compiled plan that comes to an end, a failure reaches just the nodes that a
-- path leads to.
theorem isolated_of_compile {m : Graph} {setup : Setup} {services : Services}
    {strategy symbol : String} (hm : setup.registry.migrate g none = .ok m)
    (hc : (g.compile setup services strategy symbol).1 = .ok p) (moments : List Moment) :
    ∀ t ∈ p.run moments, t.outcome.isSome → ∀ id ∈ ids m,
      ∃ n, t.plan.nodes.get? id = some n ∧ t.plan.Isolated m id n := by
  have ⟨hw, hi⟩ := Graph.implements_of_compile hm hc
  intro t ht ho id hid
  have ⟨q, moment, ⟨hb, hq⟩, he⟩ := exists_of_mem_run
    (motive := fun q => q.blank = p.blank ∧ q.WellTyped) ⟨rfl, hi.wellTyped hw⟩
    (fun q m hq => ⟨(blank_tickAt q m).trans hq.left, (sound_tickAt hq.right m).left.typed⟩) ht
  have ⟨o, ho⟩ := Option.isSome_iff_exists.mp ho
  have hs := (sound_tickAt hq moment).left
  have hf := hi.finished_tick hw hb moment.surroundings
  rw [he] at ho ⊢
  rw [tick_eq_of_tickAt ho] at hf
  -- Filling in defaults leaves the edges alone.
  have hf : (q.tickAt moment).plan.Finished m := ⟨hf.causal, hf.ended, hf.dependencies⟩
  have ⟨n₀, hn₀⟩ := hi.exists_get?_iff.mpr <| m.ids_hydrate ▸ hid
  have ⟨n, hn, _⟩ := exists_get?_of_blank_eq ((blank_tickAt q moment).trans hb).symm hn₀
  exact ⟨n, hn, hf.isolated hs hn⟩

-- A tick in which nothing is known of the market.
def blackout : Moment where
  surroundings := { now := .epoch, snapshot := ∅, readings := fun _ => .absent, timeout := 5000 }
  ttl          := 0
  services     := {}

theorem isolated_breakout :
    ∃ p, (Graph.breakout.compile {} {} "breakout" "BTC").1 = .ok p ∧
      ∀ t ∈ p.run [blackout], t.outcome.isSome ∧
        ∃ n, t.plan.nodes.get? "buy" = some n ∧
          t.plan.Isolated (Registry.stamp Graph.breakout Registry.firstVersion) "buy" n := by
  have hm : ({} : Setup).registry.migrate Graph.breakout none = .ok _ :=
    Registry.migrate_new fun v hv => by cases hv
  have ⟨p, hc⟩ := Graph.exists_compile_breakout
  refine ⟨p, hc, fun t ht => ?_⟩
  have ho : t.outcome.isSome := by
    cases List.mem_singleton.mp ht
    exact Progress.isSome_outcome_runAll fun l hl => by cases hl
  exact ⟨ho, isolated_of_compile hm hc [blackout] t ht ho "buy" (by decide)⟩

end Plan

end SignalFlow
