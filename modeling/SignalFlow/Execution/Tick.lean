import SignalFlow.Execution.Node
import SignalFlow.Plan.Compile

/-!
One tick of a plan: every node runs in order, unless something that it depends on did not complete.
A node that fails takes only its dependents with it.
-/

namespace SignalFlow

-- What one tick produced, each list in the order of execution.
structure Outcome where
  signals : List Signal := []
  failures : List (String × NodeError) := []
  skipped : List String := []
  -- the indicator values, by node
  indicators : Dict Float := ∅
  -- the indicators whose values were made up
  mocked : List String := []

def Outcome.isClean (o : Outcome) : Bool :=
  o.failures.isEmpty && o.skipped.isEmpty

-- A tick under way.
structure Progress where
  plan : Plan
  outcome : Outcome := {}

namespace Progress

-- The first dependency, by name, that did not complete.
def blocker? (p : Progress) (n : PlanNode) : Option String :=
  n.dependencies.keys.find? fun d => !p.plan.isCompleted d

def skip (p : Progress) (id blocker : String) : Progress :=
  { p with
    plan := p.plan.setState id (.skipped (.blocked blocker))
    outcome := { p.outcome with skipped := p.outcome.skipped ++ [id] } }

def view (p : Progress) (id : String) (n : PlanNode) : NodeView where
  node := n.node
  inputs := p.plan.inputs id
  strategy := p.plan.strategy
  symbol := p.plan.symbol
  indicators := p.outcome.indicators
  indicatorKey := n.indicatorKey

-- Keeps the machine of a node as it is after the node ran.
def keepMachine (p : Progress) (id : String) : Option Machine → Progress
  | none => p
  | some m => { p with plan := { p.plan with machines := p.plan.machines.insert id m } }

-- The machine that has to be stored: one that is not what it was before.
def changed? : (before after : Option Machine) → Option Machine
  | some before, some after => if before.same after then none else some after
  | _, _ => none

def fail (p : Progress) (id : String) (error : NodeError) : Progress :=
  { p with
    plan := p.plan.setState id (.failed error)
    outcome := { p.outcome with failures := p.outcome.failures ++ [(id, error)] } }

-- The outcome with the value of an indicator.
def noteIndicator (o : Outcome) (id : String) (output : NodeOutput) : Outcome :=
  { o with
    indicators :=
      match (output.values.get? "value").bind Value.number? with
      | some x => o.indicators.insert id x
      | none => o.indicators
    mocked := if output.mocked then o.mocked ++ [id] else o.mocked }

def complete (p : Progress) (id : String) (kind : Kind) (output : NodeOutput) : Progress :=
  let outcome := match kind with
    | .indicator _ => noteIndicator p.outcome id output
    | _ => p.outcome
  { p with
    plan := p.plan.setState id (.completed output)
    outcome := { outcome with signals := outcome.signals ++ output.signal.toList } }

-- Runs a node, and gives its machine if that has to be stored.
def step (s : Surroundings) (p : Progress) (id : String) : Progress × Option Machine :=
  match p.plan.nodes.get? id with
  | none => (p, none)
  | some n =>
    match p.blocker? n with
    | some blocker => (p.skip id blocker, none)
    | none =>
      let before := p.plan.machines.get? id
      let ran := (p.view id n).run s n.kind before
      let p := p.keepMachine id ran.2
      match ran.1 with
      | .ok output => (p.complete id n.kind output, changed? before ran.2)
      | .error error => (p.fail id error, changed? before ran.2)

end Progress

-- Runs a tick, apart from storing the machines that changed.
def Plan.tick (p : Plan) (s : Surroundings) : Progress :=
  p.order.foldl (fun progress id => (progress.step s id).1) { plan := p.reset }

-- Stores a machine if there is a store, and tells whether the write came to an end.
def Services.storeMachine (services : Services) (key : StateKey) (m : Machine) (ttl : Nat) :
    Bool × Services :=
  match services.store with
  | none => (true, services)
  | some link =>
    let written := link.write key (.ofMachine m) ttl
    (written.1, { services with store := some written.2 })

-- What a tick leaves behind.
structure Ticked where
  -- nothing if the tick broke off
  outcome : Option Outcome
  plan : Plan
  services : Services

-- Runs nodes one after the other, and stores each machine as soon as it changes. A write that does
-- not come to an end breaks the tick off: the machine has moved, and its node is still pending.
def Progress.runAll (s : Surroundings) (ttl : Nat) (p : Progress) (services : Services) :
    List String → Ticked
  | [] => ⟨some p.outcome, p.plan, services⟩
  | id :: rest =>
    let ran := p.step s id
    match ran.2 with
    | none => ran.1.runAll s ttl services rest
    | some m =>
      match services.storeMachine (p.plan.stateKey id) m ttl with
      | (true, services) => ran.1.runAll s ttl services rest
      | (false, services) => ⟨none, { p.plan with machines := ran.1.plan.machines }, services⟩

theorem Progress.runAll_eq_foldl {s : Surroundings} {ttl : Nat} {p : Progress} {services : Services}
    {ids : List String} {o : Outcome} (h : (p.runAll s ttl services ids).outcome = some o) :
    (⟨(p.runAll s ttl services ids).plan, o⟩ : Progress)
      = ids.foldl (fun p id => (p.step s id).1) p := by
  induction ids generalizing p services
  case nil             =>
    have h : p.outcome = o := Option.some.inj h
    rw [←h]
    rfl
  case cons id rest hi =>
    simp only [Progress.runAll, List.foldl_cons] at h ⊢
    split at h
    case h_1 => exact hi h
    case h_2 =>
      split at h
      case h_1 => exact hi h
      case h_2 => cases h

-- What a tick meets.
structure Moment where
  surroundings : Surroundings
  ttl : Nat
  services : Services

def Plan.tickAt (p : Plan) (m : Moment) : Ticked :=
  Progress.runAll m.surroundings m.ttl { plan := p.reset } m.services p.order

-- What a tick meets under the given services.
def Services.surroundings (services : Services) (config : Config) (now : Instant)
    (snapshot : Snapshot) : Surroundings where
  now := now
  snapshot := snapshot
  readings := readIndicator services.feed config.nodeTimeout
  timeout := config.nodeTimeout

def Services.moment (services : Services) (config : Config) (now : Instant)
    (snapshot : Snapshot) : Moment :=
  ⟨services.surroundings config now snapshot, config.stateTtl, services⟩

-- Runs a tick with the given services.
def Plan.execute (p : Plan) (config : Config) (services : Services) (now : Instant)
    (snapshot : Snapshot) : Ticked :=
  p.tickAt (services.moment config now snapshot)

-- Unless the tick breaks off, what the store does with the machines has no influence on it.
theorem Plan.tick_eq_of_execute {p : Plan} {config : Config} {services : Services} {now : Instant}
    {snapshot : Snapshot} {o : Outcome}
    (h : (p.execute config services now snapshot).outcome = some o) :
    p.tick (services.surroundings config now snapshot)
      = ⟨(p.execute config services now snapshot).plan, o⟩ :=
  (Progress.runAll_eq_foldl h).symm

end SignalFlow
