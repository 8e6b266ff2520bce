import SignalFlow.Proofs.Engine.Bus
import SignalFlow.Proofs.Engine.Deployments

/-!
A live engine that is called from many sides at once. Every call is a task that goes on step by step
while others do, and so is the loop that listens for updates on the bus. Whoever means to do
something to a session first gets hold of it, then waits for its lock, and only then sees what has
become of it.
-/

namespace SignalFlow

-- What comes of a step, as far as it is told about afterwards.
inductive Deed where
  | silent
  -- a tick of the session begins, runs a node, stores the machine of a node that it ran, or ends
  | began (id : String)
  | ran (id : String)
  | stored (id : String) (key : StateKey)
  | recorded (id : String)
  | published (notice : SignalNotice)
  -- the session was stopped, and those who asked for it are told so
  | stopped (id : String)
  -- somebody else publishes an event
  | told (event : Event)
  -- the loop takes an update from the bus, is through with it, or learns of a loss
  | took (update : IndicatorUpdate)
  | handled (update : IndicatorUpdate)
  | lagged (count : Nat)

def Event.update? : Event → Option IndicatorUpdate
  | .indicatorUpdated u => some u
  | .signalGenerated _  => none

namespace Deed

-- The step has to do with the session, or publishes a signal under its name.
def Concerns (id : String) : Deed → Prop
  | .began i | .ran i | .stored i _ | .recorded i | .stopped i => i = id
  | .published notice                                             => notice.session = id
  | _                                                             => False

-- What a step publishes.
def event? : Deed → Option Event
  | .published notice => some (.signalGenerated notice)
  | .told event       => some event
  | _                 => none

-- The update that somebody publishes.
def told? : Deed → Option IndicatorUpdate
  | .told event => event.update?
  | _           => none

def handled? : Deed → Option IndicatorUpdate
  | .handled u => some u
  | _          => none

-- A step of a task tells its own signals at most.
structure Inner (d : Deed) : Prop where
  told    : d.told? = none
  handled : d.handled? = none
  event   : ∀ event ∈ d.event?, event.update? = none

theorem inner_silent : Inner .silent :=
  ⟨rfl, rfl, by simp [event?]⟩

end Deed

-- An engine with its table of sessions, and the sessions that were taken off the table. Tasks may
-- have got hold of these before.
structure Scene where
  engine : Engine
  offstage : List Session := []

namespace Scene

def sessions (x : Scene) : List Session :=
  x.engine.sessions ++ x.offstage

def session? (x : Scene) (id : String) : Option Session :=
  x.sessions.find? (·.id = id)

def put (x : Scene) (s : Session) : Scene where
  engine   := x.engine.replaceSession s
  offstage := x.offstage.map fun old => if old.id = s.id then s else old

def surroundings (x : Scene) (now : Instant) (snapshot : Snapshot) : Surroundings :=
  x.engine.services.surroundings x.engine.setup.config now snapshot

def add (x : Scene) (s : Session) : Scene :=
  { x with engine := { x.engine with
      sessions := x.engine.sessions ++ [s]
      started  := x.engine.started + 1 } }

def remove (x : Scene) (s : Session) : Scene where
  engine   := { x.engine with sessions := x.engine.sessions.filter (·.id ≠ s.id) }
  offstage := x.offstage ++ [s]

def serve (x : Scene) (services : Services) : Scene :=
  { x with engine.services := services }

def publish (x : Scene) (event : Event) : Scene :=
  { x with engine.bus := x.engine.bus.publish event }

variable {x : Scene} {s t : Session} {id : String}

theorem session?_some (h : x.session? id = some s) : s ∈ x.sessions ∧ s.id = id :=
  ⟨List.mem_of_find?_eq_some h, by simpa using List.find?_some h⟩

theorem exists_session? (h : s ∈ x.sessions) : ∃ t, x.session? s.id = some t :=
  Option.isSome_iff_exists.mp <| List.find?_isSome.mpr ⟨s, h, by simp⟩

theorem sessions_put :
    (x.put s).sessions = x.sessions.map fun old => if old.id = s.id then s else old :=
  List.map_append.symm

theorem session?_put :
    (x.put s).session? id = (x.session? id).map fun old => if old.id = s.id then s else old := by
  rw [session?, sessions_put, List.find?_map, session?]
  congr 2
  funext old
  simp only [Function.comp_apply]
  split
  case isTrue hi => rw [hi]
  case isFalse   => rfl

theorem session?_put_of_ne (h : s.id ≠ id) : (x.put s).session? id = x.session? id := by
  rw [session?_put]
  cases hs : x.session? id
  case none     => rfl
  case some old =>
    have hi : old.id ≠ s.id := (session?_some hs).right ▸ h.symm
    rw [Option.map_some, if_neg hi]

end Scene

-- What runs one session for an update.
inductive Errand where
  | due (id : String)
  -- These two have the lock of the session.
  | ticking (id : String) (now : Instant) (progress : Progress) (rest : List String)
  | publishing (id : String) (signals : List Signal)

-- The sessions whose locks somebody has.
def Errand.held : Errand → List String
  | .due _                                   => []
  | .ticking id _ _ _ | .publishing id _ => [id]

-- The locks that are free are a parameter. In the end nothing remains of an errand.
inductive Errand.Moves (free : String → Prop) (snapshot : Snapshot) (x : Scene) :
    Errand → Deed → Scene → Option Errand → Prop
  -- The session was stopped in the meantime.
  | lapse {id : String} {s : Session} (lock : free id) (session : x.session? id = some s)
    (stopped : s.active = false) : Moves free snapshot x (.due id) .silent x none
  | begin {id : String} {s : Session} (lock : free id) (session : x.session? id = some s)
    (active : s.active = true) :
    Moves free snapshot x (.due id) (.began id) x
      (some <| .ticking id x.engine.clock { plan := s.plan.reset } s.plan.order)
  | run {id : String} {now : Instant} {p p' : Progress} {node : String} {rest : List String}
    (step : p.step (x.surroundings now snapshot) node = (p', none)) :
    Moves free snapshot x (.ticking id now p (node :: rest)) (.ran id) x
      (some <| .ticking id now p' rest)
  | store {id : String} {now : Instant} {p p' : Progress} {node : String} {rest : List String}
    {m : Machine} {services : Services}
    (step : p.step (x.surroundings now snapshot) node = (p', some m))
    (written : x.engine.services.storeMachine (p.plan.stateKey node) m
      x.engine.setup.config.stateTtl = (true, services)) :
    Moves free snapshot x (.ticking id now p (node :: rest)) (.stored id (p.plan.stateKey node))
      (x.serve services) (some <| .ticking id now p' rest)
  -- A write that does not come to an end takes the whole errand with it.
  | breakOff {id : String} {now : Instant} {p p' : Progress} {node : String} {rest : List String}
    {m : Machine} {services : Services} {s : Session}
    (step : p.step (x.surroundings now snapshot) node = (p', some m))
    (written : x.engine.services.storeMachine (p.plan.stateKey node) m
      x.engine.setup.config.stateTtl = (false, services))
    (session : x.session? id = some s) :
    Moves free snapshot x (.ticking id now p (node :: rest)) (.ran id)
      ((x.serve services).put { s with plan := { p.plan with machines := p'.plan.machines } }) none
  | record {id : String} {now : Instant} {p : Progress} {s : Session}
    (session : x.session? id = some s) :
    Moves free snapshot x (.ticking id now p []) (.recorded id)
      (x.put <| { s with plan := p.plan }.recordOutcome p.outcome x.engine.clock)
      (some <| .publishing id p.outcome.signals)
  | publish {id : String} {signal : Signal} {signals : List Signal} {s : Session}
    (session : x.session? id = some s) :
    Moves free snapshot x (.publishing id (signal :: signals))
      (.published <| .ofSignal id s.strategy signal)
      (x.publish <| .signalGenerated <| .ofSignal id s.strategy signal)
      (some <| .publishing id signals)
  | release {id : String} : Moves free snapshot x (.publishing id []) .silent x none

-- What an update is in: it gets hold of sessions one after the other, and then runs them all at
-- once. Sessions may come to the table or leave it while it looks through it.
inductive Handling where
  | collecting (update : IndicatorUpdate) (present found : List String)
  | running (update : IndicatorUpdate) (errands : List Errand)

namespace Handling

def first (x : Scene) (update : IndicatorUpdate) : Handling :=
  .collecting update (x.engine.sessions.map Session.id) []

def update : Handling → IndicatorUpdate
  | .collecting u _ _ | .running u _ => u

def held : Handling → List String
  | .collecting _ _ _  => []
  | .running _ errands => errands.flatMap Errand.held

inductive Moves (free : String → Prop) (x : Scene) : Handling → Deed → Scene → Handling → Prop
  | collect {u : IndicatorUpdate} {present found : List String} {s : Session}
    (live : s ∈ x.engine.sessions) (symbol : s.symbol = u.symbol) (new : s.id ∉ found) :
    Moves free x (.collecting u present found) .silent x (.collecting u present (found ++ [s.id]))
  -- No session is overlooked that was there all the time.
  | spawn {u : IndicatorUpdate} {present found : List String}
    (all : ∀ s ∈ x.engine.sessions, s.symbol = u.symbol → s.id ∈ present → s.id ∈ found) :
    Moves free x (.collecting u present found) .silent x (.running u <| found.map .due)
  | errand {u : IndicatorUpdate} {l r : List Errand} {errand : Errand} {d : Deed} {x' : Scene}
    {errand? : Option Errand} (moves : errand.Moves free u.snapshot x d x' errand?) :
    Moves free x (.running u <| l ++ errand :: r) d x' (.running u <| l ++ errand?.toList ++ r)

end Handling

-- What a call is in.
inductive Task where
  | update (handling : Handling)
  | start (strategy : String) (graph : Graph) (symbol : String)
  | deploying (strategy : String) (graph : Graph) (plan : Plan)
  | stop (id : String)
  -- has taken the session off the table, and waits for its lock
  | stopping (id : String)
  | reload (id : String) (graph : Graph)
  -- has got hold of the session, and waits for its lock
  | awaiting (id : String) (graph : Graph)
  | reloading (id : String) (graph : Graph)

namespace Task

def held : Task → List String
  | .update h       => h.held
  | .reloading id _ => [id]
  | _               => []

inductive Moves (free : String → Prop) (x : Scene) : Task → Deed → Scene → Option Task → Prop
  | update {h h' : Handling} {d : Deed} {x' : Scene} (moves : h.Moves free x d x' h') :
    Moves free x (.update h) d x' (some <| .update h')
  | join {u : IndicatorUpdate} : Moves free x (.update <| .running u []) .silent x none
  | compile {strategy : String} {graph : Graph} {symbol : String} {plan : Plan}
    {services : Services}
    (compiled : graph.compile x.engine.setup x.engine.services strategy symbol
      = (.ok plan, services)) :
    Moves free x (.start strategy graph symbol) .silent (x.serve services)
      (some <| .deploying strategy graph plan)
  | refuse {strategy : String} {graph : Graph} {symbol : String} {error : CompileError}
    {services : Services}
    (compiled : graph.compile x.engine.setup x.engine.services strategy symbol
      = (.error error, services)) :
    Moves free x (.start strategy graph symbol) .silent (x.serve services) none
  | deploy {strategy : String} {graph : Graph} {plan : Plan} :
    Moves free x (.deploying strategy graph plan) .silent
      (x.add <| .new (Engine.sessionId (x.engine.started + 1)) strategy graph plan
        x.engine.setup.config) none
  | remove {id : String} {s : Session} (live : x.engine.session? id = some s) :
    Moves free x (.stop id) .silent (x.remove s) (some <| .stopping id)
  | reject {id : String} (missing : x.engine.session? id = none) :
    Moves free x (.stop id) .silent x none
  | deactivate {id : String} {s : Session} (lock : free id) (session : x.session? id = some s) :
    Moves free x (.stopping id) (.stopped id) (x.put { s with active := false }) none
  | capture {id : String} {graph : Graph} {s : Session} (live : x.engine.session? id = some s) :
    Moves free x (.reload id graph) .silent x (some <| .awaiting id graph)
  | miss {id : String} {graph : Graph} (missing : x.engine.session? id = none) :
    Moves free x (.reload id graph) .silent x none
  | seize {id : String} {graph : Graph} (lock : free id) :
    Moves free x (.awaiting id graph) .silent x (some <| .reloading id graph)
  | replace {id : String} {graph : Graph} {s : Session} {plan : Plan} {services : Services}
    (session : x.session? id = some s)
    (compiled : graph.compile x.engine.setup x.engine.services s.strategy s.symbol
      = (.ok plan, services)) :
    Moves free x (.reloading id graph) .silent ((x.serve services).put <| s.replacePlan graph plan)
      none
  | keep {id : String} {graph : Graph} {s : Session} {error : CompileError} {services : Services}
    (session : x.session? id = some s)
    (compiled : graph.compile x.engine.setup x.engine.services s.strategy s.symbol
      = (.error error, services)) :
    Moves free x (.reloading id graph) .silent (x.serve services) none

end Task

section Inner

variable {free : String → Prop} {x x' : Scene} {d : Deed}

-- What a task does to the bus.
structure Scene.Tells (x : Scene) (d : Deed) (x' : Scene) : Prop where
  bus   : x'.engine.bus = d.event?.elim x.engine.bus x.engine.bus.publish
  inner : d.Inner

theorem Errand.Moves.tells {snapshot : Snapshot} {errand : Errand} {errand? : Option Errand}
    (h : errand.Moves free snapshot x d x' errand?) : x.Tells d x' := by
  cases h
  all_goals exact ⟨rfl, rfl, rfl, by simp [Deed.event?, Event.update?]⟩

theorem Handling.Moves.tells {h h' : Handling} (hm : h.Moves free x d x' h') :
    x.Tells d x' ∧ h'.update = h.update := by
  cases hm
  case collect | spawn => exact ⟨⟨rfl, Deed.inner_silent⟩, rfl⟩
  case errand hm       => exact ⟨hm.tells, rfl⟩

theorem Task.Moves.tells {t : Task} {t? : Option Task} (hm : t.Moves free x d x' t?) :
    x.Tells d x' := by
  cases hm
  case update hm => exact hm.tells.left
  all_goals exact ⟨rfl, rfl, rfl, by simp [Deed.event?]⟩

end Inner

-- An engine with everything that is under way in it.
structure World extends Scene where
  tasks : List Task := []
  -- the update that the loop is in
  loop : Option Handling := none

namespace World

-- The name under which the loop listens to the bus.
def listener : String := "engine"

def new (setup : Setup) (services : Services) (clock : Instant) : World where
  engine :=
    let e := Engine.new setup services clock
    { e with bus := e.bus.subscribe listener }

def jobs (w : World) : List Task :=
  (w.loop.map .update).toList ++ w.tasks

-- Nobody has the lock of the session.
def Free (w : World) (id : String) : Prop :=
  id ∉ w.jobs.flatMap Task.held

-- The world with a call that was just made.
def receive (w : World) : EngineCall → World
  | .start strategy graph symbol => { w with tasks := w.tasks ++ [.start strategy graph symbol] }
  | .stop id                     => { w with tasks := w.tasks ++ [.stop id] }
  | .reload id graph             => { w with tasks := w.tasks ++ [.reload id graph] }
  | .update u                    => { w with tasks := w.tasks ++ [.update <| .first w.toScene u] }
  | .meanwhile services clock    => { w with engine := { w.engine with services, clock } }

-- What goes on inside.
inductive Works (w : World) : Deed → World → Prop
  | task {l r : List Task} {t : Task} {d : Deed} {x : Scene} {t? : Option Task}
    (tasks : w.tasks = l ++ t :: r) (moves : t.Moves w.Free w.toScene d x t?) :
    Works w d { w with toScene := x, tasks := l ++ t?.toList ++ r }
  | take {u : IndicatorUpdate} {bus : Bus Event} (idle : w.loop = none)
    (next : w.engine.bus.next? listener = some (.event (.indicatorUpdated u), bus)) :
    Works w (.took u) { w with engine.bus := bus, loop := some <| .first w.toScene u }
  -- Signals that come in are not for this engine.
  | pass {notice : SignalNotice} {bus : Bus Event} (idle : w.loop = none)
    (next : w.engine.bus.next? listener = some (.event (.signalGenerated notice), bus)) :
    Works w .silent { w with engine.bus := bus }
  | lag {count : Nat} {bus : Bus Event} (idle : w.loop = none)
    (next : w.engine.bus.next? listener = some (.lagged count, bus)) :
    Works w (.lagged count) { w with engine.bus := bus }
  | handle {h h' : Handling} {d : Deed} {x : Scene} (busy : w.loop = some h)
    (moves : h.Moves w.Free w.toScene d x h') :
    Works w d { w with toScene := x, loop := some h' }
  | finish {u : IndicatorUpdate} (busy : w.loop = some (.running u [])) :
    Works w (.handled u) { w with loop := none }

-- Everything that may happen. Calls are made and events published at any time.
inductive Step (w : World) : Deed → World → Prop
  | works {d : Deed} {w' : World} (works : w.Works d w') : Step w d w'
  | call (call : EngineCall) : Step w .silent (w.receive call)
  | tell (event : Event) : Step w (.told event) { w with toScene := w.publish event }
  | aside {bus : Bus Event} (aside : w.engine.bus.Aside listener bus) :
    Step w .silent { w with engine.bus := bus }

-- Steps of some kind, one after the other, each with the world that it leads to.
inductive Path (kind : World → Deed → World → Prop) : World → List (Deed × World) → Prop
  | nil {w : World} : Path kind w []
  | cons {w w' : World} {d : Deed} {later : List (Deed × World)} (step : kind w d w')
    (rest : Path kind w' later) : Path kind w ((d, w') :: later)

-- The updates that were told in some steps, and those that the loop was through with.
def told (steps : List (Deed × World)) : List IndicatorUpdate :=
  steps.filterMap (·.1.told?)

def handled (steps : List (Deed × World)) : List IndicatorUpdate :=
  steps.filterMap (·.1.handled?)

-- Where a path leads to.
def last (w : World) (steps : List (Deed × World)) : World :=
  steps.foldl (fun _ step => step.2) w

end World

end SignalFlow
