import SignalFlow.CommandLine.Request
import SignalFlow.Config
import SignalFlow.Graph.Portable
import SignalFlow.Replay

/-!
What the commands print: the findings of a check, the order of execution of a plan, or the signals
of a replay.
-/

namespace SignalFlow

namespace CommandLine

-- What a command sees of the computer that it runs on.
structure Host where
  -- the contents of a file, or why it cannot be read
  file : String → Except String String
  environment : String → Option String
  now : Instant

inductive Failure where
  | config (error : ConfigError)
  | environment (error : ConfigError)
  | unreadableEvents (path reason : String)
  | malformedEvents
  | nothingToReplay
  | unreadableGraph (path reason : String)
  | malformedGraph (path : String)
  | compile (error : CompileError)
  | invalid (errors : Nat)

def compileMessage : CompileError → String
  | .invalid report =>
    "Graph failed validation:\n" ++ "\n".intercalate (report.errors.map fun i => "  " ++ i.text)
  | error => error.message

def loadMessage (path reason : String) : String :=
  "Failed to load graph '" ++ path ++ "': " ++ reason

def Failure.message : Failure → String
  | .config error => "Failed to load config: " ++ error.message
  | .environment error => error.message
  | .unreadableEvents path reason => "Failed to read events '" ++ path ++ "': " ++ reason
  | .malformedEvents => "Failed to parse events:"
  | .nothingToReplay => "Replay needs --events or --prices"
  | .unreadableGraph path reason =>
    loadMessage path ("Could not read graph file '" ++ path ++ "': " ++ reason)
  | .malformedGraph path => loadMessage path "Failed to parse graph JSON:"
  | .compile error => compileMessage error
  | .invalid errors => toString errors ++ " validation error(s)"

-- A line of output; some of them end with the time that the work took.
inductive Line where
  | plain (text : String)
  | timed (text : String)

def Line.text (elapsed : String) : Line → String
  | .plain text => text
  | .timed text => text ++ " in " ++ elapsed

-- Nanoseconds in the greatest unit that they fill, without trailing zeros.
def elapsedText (nanos : Nat) : String :=
  if nanos < 1000 then toString nanos ++ "ns"
  else if nanos < 1000000 then scaled 3 ++ "µs"
  else if nanos < 1000000000 then scaled 6 ++ "ms"
  else scaled 9 ++ "s"
where
  scaled (places : Nat) : String :=
    let unit := Nat.pow 10 places
    let digits := (Rfc3339.padded places (nanos % unit)).toList
    let fraction := (digits.reverse.dropWhile (· = '0')).reverse
    toString (nanos / unit) ++
      if fraction.isEmpty then "" else "." ++ String.ofList fraction

-- What a command leaves: lines on both channels, and the failure that ended it.
structure Answer where
  output : List Line := []
  notices : List Line := []
  failure : Option Failure := none

namespace Answer

def ofFailure (f : Failure) : Answer := { failure := some f }

def exitCode (a : Answer) : Nat :=
  if a.failure.isSome then 1 else 0

-- Everything on the channel for notices; a failure stands last, after an empty line.
def allNotices (a : Answer) : List Line :=
  a.notices ++ a.failure.toList.flatMap fun f => [.plain "", .plain ("Error: " ++ f.message)]

end Answer

-- Reading what the commands work on.

def loadConfig (host : Host) (path : Option String) : Except Failure Config := do
  let config ← match path with
    | none => .ok {}
    | some path =>
      match host.file path with
      | .error reason => .error (.config (.unreadable path reason))
      | .ok text => (Config.parse? text).mapError .config
  (config.withEnvironment host.environment).mapError .environment

def loadGraph (host : Host) (path : String) : Except Failure Graph :=
  match host.file path with
  | .error reason => .error (.unreadableGraph path reason)
  | .ok text => (Graph.parse? text).elim (.error (.malformedGraph path)) .ok

def loadUpdates (host : Host) (symbol : String) (interval : Float) :
    Source → Except Failure (List IndicatorUpdate)
  | .events path =>
    match host.file path with
    | .error reason => .error (.unreadableEvents path reason)
    | .ok text => (Replay.updates? text).elim (.error .malformedEvents) .ok
  | .prices [] => .error .nothingToReplay
  | .prices prices => .ok (Replay.ofPrices symbol host.now interval prices)

-- Plans that are made here have no services.
def compileGraph (config : Config) (g : Graph) (symbol : String) : Except Failure Plan :=
  (g.compile { config } {} g.name symbol).1.mapError .compile

-- The commands.

def severityLabel : Severity → String
  | .error => "Error"
  | .warning => "Warning"

def issueLine (i : Issue) : Line :=
  .plain ("  " ++ severityLabel i.severity ++ ": " ++ i.text)

def validate (host : Host) (config : Config) (path : String) : Except Failure Answer := do
  let g ← loadGraph host path
  let report := g.validate config
  let findings := .plain ("Validation of '" ++ g.name ++ "'") :: report.issues.map issueLine
  if report.isValid then
    let warnings := toString report.warnings.length
    .ok { output := findings ++ [.plain ("OK (" ++ warnings ++ " warning(s))")] }
  else .ok { output := findings, failure := some (.invalid report.errors.length) }

-- A number in three columns, or more if it needs them.
def numbered (n : Nat) : String :=
  let digits := toString n
  String.ofList (List.replicate (3 - digits.length) ' ') ++ digits

def nodeLine (p : Plan) (position : Nat) (id : String) : Option Line :=
  (p.nodes.get? id).map fun n =>
    .plain ("  " ++ numbered (position + 1) ++ ". " ++ id ++ " (" ++ n.node.nodeType ++ ")")

def compile (host : Host) (config : Config) (path symbol : String) : Except Failure Answer := do
  let g ← loadGraph host path
  let plan ← compileGraph config g symbol
  let header := .timed ("Compiled '" ++ plan.name ++ "' for " ++ plan.symbol)
  let order := plan.order.zipIdx.filterMap fun (id, i) => nodeLine plan i id
  let temporal :=
    if plan.machines.isEmpty then []
    else [.plain ("Temporal nodes: " ++ ", ".intercalate plan.temporalNodes)]
  .ok { output := header :: order ++ temporal }

def failureLine (f : String × NodeError) : Line :=
  .plain ("  ! " ++ f.1 ++ ": " ++ f.2.message)

def replay (host : Host) (config : Config) (path symbol : String) (source : Source)
    (interval : Float) : Except Failure Answer := do
  let updates ← loadUpdates host symbol interval source
  let g ← loadGraph host path
  let plan ← compileGraph config g symbol
  let r := Replay.run plan config host.now interval updates
  let summary := "Replayed " ++ toString updates.length ++ " event(s), "
    ++ toString r.signals.length ++ " signal(s)"
  .ok {
    output := r.signals.map fun s => .plain s.toJson.compact
    notices := r.failures.map failureLine ++ [.timed summary] }

def Request.run (r : Request) (host : Host) : Except Failure Answer := do
  let config ← loadConfig host r.config
  match r.command with
  | .validate graph => validate host config graph
  | .compile graph symbol => compile host config graph symbol
  | .replay graph symbol source interval => replay host config graph symbol source interval

def Request.answer (r : Request) (host : Host) : Answer :=
  match r.run host with
  | .ok answer => answer
  | .error failure => .ofFailure failure

end CommandLine

end SignalFlow
