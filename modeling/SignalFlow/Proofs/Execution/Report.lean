import SignalFlow.Proofs.Execution.Turns

/-!
The outcome of a tick says nothing that the plan does not show afterwards: each of its lists can be
read off the nodes, in the order in which they ran.
-/

namespace SignalFlow

theorem NodeState.eq_of_output? {state : NodeState} {output : NodeOutput}
    (h : state.output? = some output) : state = .completed output := by
  cases state <;> cases h
  rfl

namespace PlanNode

variable (n : PlanNode)

def failure? : Option NodeError :=
  match n.state with
  | .failed error => some error
  | _             => none

def isSkipped : Bool :=
  match n.state with
  | .skipped _ => true
  | _          => false

def signal? : Option Signal :=
  n.state.output?.bind (·.signal)

-- The output of an indicator that completed.
def indication? : Option NodeOutput :=
  n.state.output?.bind fun output =>
    match n.kind with
    | .indicator _ => some output
    | _            => none

def indicator? : Option Float :=
  n.indication?.bind fun output => (output.values.get? "value").bind Value.number?

def isMocked : Bool :=
  n.indication?.any (·.mocked)

end PlanNode

-- The outcome once a node ended.
def Outcome.record (o : Outcome) (id : String) (n : PlanNode) : Outcome where
  signals    := o.signals ++ n.signal?.toList
  failures   := o.failures ++ (n.failure?.map (id, ·)).toList
  skipped    := o.skipped ++ if n.isSkipped then [id] else []
  indicators := n.indicator?.elim o.indicators (o.indicators.insert id)
  mocked     := o.mocked ++ if n.isMocked then [id] else []

section Record

variable {o : Outcome} {id : String} {n : PlanNode} {error : NodeError} {output : NodeOutput}

theorem Outcome.record_skipped :
    o.record id (n.enter (.skipped error)) = { o with skipped := o.skipped ++ [id] } := by
  have hn : (n.enter (.skipped error)).signal? = none := rfl
  have hf : (n.enter (.skipped error)).failure? = none := rfl
  have hs : (n.enter (.skipped error)).isSkipped = true := rfl
  have hi : (n.enter (.skipped error)).indicator? = none := rfl
  have hm : (n.enter (.skipped error)).isMocked = false := rfl
  simp [record, hn, hf, hs, hi, hm]

theorem Outcome.record_failed :
    o.record id (n.enter (.failed error)) = { o with failures := o.failures ++ [(id, error)] } := by
  have hn : (n.enter (.failed error)).signal? = none := rfl
  have hf : (n.enter (.failed error)).failure? = some error := rfl
  have hs : (n.enter (.failed error)).isSkipped = false := rfl
  have hi : (n.enter (.failed error)).indicator? = none := rfl
  have hm : (n.enter (.failed error)).isMocked = false := rfl
  simp [record, hn, hf, hs, hi, hm]

-- Only what indicators give is noted apart from signals.
theorem Outcome.record_completed {p : Progress} :
    p.outcome.record id (n.enter (.completed output)) = (p.complete id n.kind output).outcome := by
  have hf : (n.enter (.completed output)).failure? = none := rfl
  have hs : (n.enter (.completed output)).isSkipped = false := rfl
  have hn : (n.enter (.completed output)).signal? = output.signal := rfl
  have hi : (n.enter (.completed output)).indication? =
    match n.kind with
    | .indicator _ => some output
    | _            => none := rfl
  simp only [record, Progress.complete, hn, hf, hs, PlanNode.indicator?, PlanNode.isMocked, hi]
  cases n.kind
  case indicator =>
    simp only [Progress.noteIndicator, Option.bind_some, Option.any_some]
    by_cases hm : output.mocked <;>
      cases (output.values.get? "value").bind Value.number? <;> simp [hm]
  case dataSource | condition | composition | action => simp

theorem Progress.outcome_step {p : Progress} {s : Surroundings}
    (hn : p.plan.nodes.get? id = some n) :
    (p.step s id).1.outcome = p.outcome.record id (n.enter (p.turn s id n).1) := by
  have hk (m : Option Machine) : (p.keepMachine id m).outcome = p.outcome := by cases m <;> rfl
  simp only [step, hn, turn]
  cases p.blocker? n
  case some blocker => exact Outcome.record_skipped.symm
  case none =>
    dsimp only
    split
    case h_1 output hr =>
      rw [hr, ←hk]
      exact Outcome.record_completed.symm
    case h_2 error hr  =>
      rw [hr, ←hk]
      exact Outcome.record_failed.symm

end Record

namespace Plan

variable (p : Plan) (id : String)

def failure? : Option (String × NodeError) :=
  ((p.nodes.get? id).bind PlanNode.failure?).map (id, ·)

def isSkipped : Bool :=
  (p.nodes.get? id).any PlanNode.isSkipped

def signal? : Option Signal :=
  (p.nodes.get? id).bind PlanNode.signal?

def indicator? : Option Float :=
  (p.nodes.get? id).bind PlanNode.indicator?

def isMocked : Bool :=
  (p.nodes.get? id).any PlanNode.isMocked

-- The outcome is what the plan shows of the nodes that had their turn.
structure Reports (p : Plan) (done : List String) (o : Outcome) : Prop where
  signals    : o.signals = done.filterMap p.signal?
  failures   : o.failures = done.filterMap p.failure?
  skipped    : o.skipped = done.filter p.isSkipped
  indicators : ∀ id, o.indicators.get? id = if id ∈ done then p.indicator? id else none
  mocked     : o.mocked = done.filter p.isMocked

section

variable {p : Plan} {before : Plan} {s : Surroundings} {done rest : List String} {id : String}

-- A report is left as it is by what happens elsewhere in the plan.
theorem Reports.congr {q : Plan} {o : Outcome} (h : p.Reports done o)
    (hn : ∀ id ∈ done, q.nodes.get? id = p.nodes.get? id) : q.Reports done o where
  signals       := by
    rw [h.signals]
    exact List.filterMap_congr fun id hm => by rw [signal?, signal?, hn id hm]
  failures      := by
    rw [h.failures]
    exact List.filterMap_congr fun id hm => by rw [failure?, failure?, hn id hm]
  skipped       := by
    rw [h.skipped]
    exact List.filter_congr fun id hm => by rw [isSkipped, isSkipped, hn id hm]
  indicators id := by
    rw [h.indicators]
    split
    case isTrue hm => rw [indicator?, indicator?, hn id hm]
    case isFalse   => rfl
  mocked        := by
    rw [h.mocked]
    exact List.filter_congr fun id hm => by rw [isMocked, isMocked, hn id hm]

theorem filterMap_concat {α β : Type} (f : α → Option β) (l : List α) (a : α) :
    (l ++ [a]).filterMap f = l.filterMap f ++ (f a).toList := by
  cases h : f a <;> simp [h]

theorem filter_concat {α : Type} (f : α → Bool) (l : List α) (a : α) :
    (l ++ [a]).filter f = l.filter f ++ if f a then [a] else [] := by
  cases h : f a <;> simp [h]

theorem Reports.record {o : Outcome} {n : PlanNode} (h : p.Reports done o) (hid : id ∉ done)
    (hn : p.nodes.get? id = some n) : p.Reports (done ++ [id]) (o.record id n) where
  signals      := by
    have hs : p.signal? id = n.signal? := by rw [signal?, hn, Option.bind_some]
    rw [filterMap_concat, hs, ←h.signals, Outcome.record]
  failures     := by
    have hf : p.failure? id = n.failure?.map (id, ·) := by rw [failure?, hn, Option.bind_some]
    rw [filterMap_concat, hf, ←h.failures, Outcome.record]
  skipped      := by
    have hs : p.isSkipped id = n.isSkipped := by rw [isSkipped, hn, Option.any_some]
    rw [filter_concat, hs, ←h.skipped, Outcome.record]
  mocked       := by
    have hm : p.isMocked id = n.isMocked := by rw [isMocked, hn, Option.any_some]
    rw [filter_concat, hm, ←h.mocked, Outcome.record]
  indicators k := by
    have hi : p.indicator? id = n.indicator? := by rw [indicator?, hn, Option.bind_some]
    have hk := h.indicators k
    have ho : o.indicators.get? id = none := by rw [h.indicators, if_neg hid]
    rw [Outcome.record]
    by_cases he : k = id
    case pos =>
      subst he
      cases hv : n.indicator? <;> simp [hi, hv, ho]
    case neg =>
      cases hv : n.indicator? <;> simp [hk, he]

theorem Reports.step {p : Progress} {n : PlanNode} (h : p.plan.Reports done p.outcome)
    (hid : id ∉ done) (hn : p.plan.nodes.get? id = some n) :
    (p.step s id).1.plan.Reports (done ++ [id]) (p.step s id).1.outcome := by
  rw [Progress.outcome_step hn]
  refine Reports.record (h.congr fun k hk => ?_) hid ?_
  · have hne : k ≠ id := ne_of_mem_of_not_mem hk hid
    simp [Progress.get?_nodes_step hn, hne]
  · simp [Progress.get?_nodes_step hn, hn]

-- Any part of the order may be left for later.
theorem Reports.foldl {p : Progress} {ids : List String} (h : p.plan.Reports done p.outcome)
    (hc : p.plan.Causal) (ho : p.plan.order = done ++ ids ++ rest) :
    let after := ids.foldl (fun p id => (p.step s id).1) p
    after.plan.Reports (done ++ ids) after.outcome := by
  induction ids generalizing done p
  case nil            => exact (List.append_nil done).symm ▸ h
  case cons id ids hi =>
    have ho : p.plan.order = done ++ id :: (ids ++ rest) := by simp [ho]
    have ⟨hid, n, hn⟩ := hc.next ho
    have hb : (p.step s id).1.plan.blank = p.plan.blank := Progress.blank_step
    rw [List.append_cons]
    exact hi (h.step hid hn) (hc.congr hb) (by rw [order_eq_of_blank_eq hb, ho]; simp)

end

variable {p : Plan}

theorem reports_upTo (h : p.Causal) (s : Surroundings) {done rest : List String}
    (ho : p.order = done ++ rest) : (p.upTo s done).plan.Reports done (p.upTo s done).outcome := by
  have hi : p.reset.Reports [] {} := by
    constructor
    case indicators => exact fun _ => rfl
    case signals | failures | skipped | mocked => rfl
  exact hi.foldl (p := { plan := p.reset }) (h.congr blank_reset) ho

theorem reports_tick (h : p.Causal) (s : Surroundings) :
    (p.tick s).plan.Reports p.order (p.tick s).outcome :=
  reports_upTo h s (List.append_nil _).symm

end Plan

end SignalFlow
