import SignalFlow.Execution.Tick

/-!
Sessions: a plan deployed under a strategy name for a symbol, with counters, its latest errors and
its latest signals.
-/

namespace SignalFlow

structure SessionError where
  node : Option String
  message : String
  time : Instant
deriving DecidableEq

def SessionError.toJson (e : SessionError) : Json :=
  .obj [("node_id", .ofOption .str e.node), ("message", .str e.message),
    ("at", .str (Rfc3339.write e.time))]

structure Session where
  id : String
  strategy : String
  symbol : String
  graph : Graph
  plan : Plan
  -- how many plans have been replaced
  revision : Nat := 0
  active : Bool := true
  executions : Nat := 0
  signalsEmitted : Nat := 0
  errorCount : Nat := 0
  lastExecution : Option Instant := none
  recentErrors : List SessionError := []
  signalHistory : List Signal := []
  maxRecentErrors : Nat
  maxSignalHistory : Nat

namespace Session

def new (id strategy : String) (graph : Graph) (plan : Plan) (config : Config) : Session :=
  { id, strategy, graph, plan
    symbol := plan.symbol
    maxRecentErrors := config.maxRecentErrors
    maxSignalHistory := config.maxSignalHistory }

-- The list with one more element at its end, the oldest ones dropped as the limit demands. Nothing
-- is ever added under a limit of zero.
def pushBounded {α : Type} (limit : Nat) (l : List α) (a : α) : List α :=
  if limit = 0 then l else (l ++ [a]).drop (l.length + 1 - limit)

def recordError (s : Session) (node : Option String) (message : String) (time : Instant) :
    Session :=
  { s with
    errorCount := s.errorCount + 1
    recentErrors := pushBounded s.maxRecentErrors s.recentErrors ⟨node, message, time⟩ }

def recordSignal (s : Session) (signal : Signal) : Session :=
  { s with
    signalsEmitted := s.signalsEmitted + 1
    signalHistory := pushBounded s.maxSignalHistory s.signalHistory signal }

-- Counts the outcome of one tick. Nodes that were skipped are no errors.
def recordOutcome (s : Session) (outcome : Outcome) (time : Instant) : Session :=
  let counted := { s with executions := s.executions + 1, lastExecution := some time }
  let fail (s : Session) (f : String × NodeError) := s.recordError (some f.1) f.2.message time
  outcome.signals.foldl recordSignal (outcome.failures.foldl fail counted)

-- Runs a tick. One that breaks off is not recorded, but machines that moved stay as they are.
def run (s : Session) (config : Config) (services : Services) (now : Instant)
    (snapshot : Snapshot) : Ticked × Session :=
  let ticked := s.plan.execute config services now snapshot
  let ran := { s with plan := ticked.plan }
  (ticked, ticked.outcome.elim ran fun o => ran.recordOutcome o now)

-- Swaps the plan. Counters and histories stay.
def replacePlan (s : Session) (graph : Graph) (plan : Plan) : Session :=
  { s with graph, plan, revision := s.revision + 1 }

-- The state of a session for those who watch it.
def status (s : Session) : Json :=
  .obj [("session", .str s.id), ("strategy_name", .str s.strategy), ("symbol", .str s.symbol),
    ("execution_order", .arr (s.plan.order.map .str)), ("active", .bool s.active),
    ("executions", .ofNat s.executions), ("signals_emitted", .ofNat s.signalsEmitted),
    ("error_count", .ofNat s.errorCount),
    ("last_execution", .ofOption (fun t => .str (Rfc3339.write t)) s.lastExecution),
    ("recent_errors", .arr (s.recentErrors.map SessionError.toJson))]

end Session

end SignalFlow
