import SignalFlow.Engine.Bus
import SignalFlow.Engine.Event
import SignalFlow.Engine.Session

/-!
A live engine: sessions that are run whenever fresh data arrive for their symbol, and a bus for the
signals that they emit.
-/

namespace SignalFlow

inductive EngineError where
  | sessionNotFound (id : String)
  | compile (error : CompileError)

def EngineError.message : EngineError → String
  | .sessionNotFound id => "Session '" ++ id ++ "' not found"
  | .compile error => error.message

structure Engine where
  setup : Setup
  services : Services
  clock : Instant
  -- the live sessions, in the order in which they were started
  sessions : List Session := []
  -- how many sessions were ever started
  started : Nat := 0
  bus : Bus Event

namespace Engine

def new (setup : Setup) (services : Services) (clock : Instant) : Engine :=
  { setup, services, clock, bus := .new setup.config.eventCapacity }

def session? (e : Engine) (id : String) : Option Session :=
  e.sessions.find? (·.id == id)

-- Sessions are numbered from one.
def sessionId (number : Nat) : String :=
  "s" ++ toString number

def replaceSession (e : Engine) (s : Session) : Engine :=
  { e with sessions := e.sessions.map fun old => if old.id = s.id then s else old }

-- Compiles a graph and deploys it.
def start (e : Engine) (strategy : String) (graph : Graph) (symbol : String) :
    Except EngineError String × Engine :=
  match graph.compile e.setup e.services strategy symbol with
  | (.error error, services) => (.error (.compile error), { e with services })
  | (.ok plan, services) =>
    let id := sessionId (e.started + 1)
    (.ok id,
      { e with
        services
        sessions := e.sessions ++ [.new id strategy graph plan e.setup.config]
        started := e.started + 1 })

-- Takes a session off the engine and gives its last state, in which it is inactive.
def stop (e : Engine) (id : String) : Except EngineError Session × Engine :=
  match e.session? id with
  | none => (.error (.sessionNotFound id), e)
  | some s =>
    (.ok { s with active := false }, { e with sessions := e.sessions.filter (·.id ≠ id) })

-- Recompiles a session from a graph. If that fails the session keeps its plan.
def reload (e : Engine) (id : String) (graph : Graph) : Except EngineError Unit × Engine :=
  match e.session? id with
  | none => (.error (.sessionNotFound id), e)
  | some s =>
    match graph.compile e.setup e.services s.strategy s.symbol with
    | (.error error, services) => (.error (.compile error), { e with services })
    | (.ok plan, services) =>
      (.ok (), ({ e with services }).replaceSession (s.replacePlan graph plan))

def publishSignals (bus : Bus Event) (s : Session) (signals : List Signal) : Bus Event :=
  signals.foldl (fun bus x => bus.publish (.signalGenerated (.ofSignal s.id s.strategy x))) bus

-- Runs a tick of one session. A tick that breaks off gives no signals.
def runSession (e : Engine) (snapshot : Snapshot) (s : Session) : List Signal × Engine :=
  let (ticked, ran) := s.run e.setup.config e.services e.clock snapshot
  let signals := (ticked.outcome.map Outcome.signals).getD []
  let e := { e with services := ticked.services, bus := publishSignals e.bus s signals }
  (signals, e.replaceSession ran)

-- The sessions that an update concerns.
def targets (e : Engine) (update : IndicatorUpdate) : List Session :=
  e.sessions.filter fun s => s.symbol == update.symbol && s.active

-- Runs every session on the symbol of the update, and gives all signals that they emit.
def update (e : Engine) (update : IndicatorUpdate) : List Signal × Engine :=
  (e.targets update).foldl
    (fun (signals, e) s =>
      let ran := e.runSession update.snapshot s
      (signals ++ ran.1, ran.2))
    ([], e)

-- Handles an event; signals that come in are not for this engine.
def handle (e : Engine) (event : Event) : Engine :=
  match event with
  | .indicatorUpdated u => (e.update u).2
  | .signalGenerated _ => e

-- Handles what waits on a channel; events that were lost are passed over.
def consume (e : Engine) (waiting : Bus.Waiting Event) : Engine :=
  waiting.events.foldl handle e

end Engine

end SignalFlow
