import SignalFlow.Decimal.Notation

/-!
What a command line asks for.
-/

namespace SignalFlow

namespace CommandLine

-- Where the updates of a replay come from.
inductive Source where
  | events (path : String)
  | prices (prices : List Float)

inductive Command where
  | validate (graph : String)
  | compile (graph symbol : String)
  | replay (graph symbol : String) (source : Source) (interval : Float)

structure Request where
  config : Option String
  command : Command

-- The files that a request names.
def Request.paths (r : Request) : List String :=
  r.config.toList ++
    match r.command with
    | .validate graph => [graph]
    | .compile graph _ => [graph]
    | .replay graph _ (.events path) _ => [path, graph]
    | .replay graph _ (.prices _) _ => [graph]

def defaultSymbol : String := "BTC_USDT"

-- Seconds between updates.
def defaultInterval : Float := 1

-- Splitting arguments.

-- The options, by their letters. All of them take a value.
def optionNames : List (Char × String) :=
  [('c', "config"), ('s', "symbol"), ('e', "events"), ('p', "prices"), ('i', "interval")]

structure Arguments where
  options : List (String × String) := []
  positional : List String := []

namespace Arguments

def withOption (a : Arguments) (name value : String) : Arguments :=
  { a with options := (name, value) :: a.options }

def withPositional (a : Arguments) (value : String) : Arguments :=
  { a with positional := value :: a.positional }

-- The name of an option and the value in the same argument, if there is one.
def splitOption : List Char → Option (String × Option String)
  | '-' :: '-' :: rest =>
    let name := String.ofList (rest.takeWhile (· ≠ '='))
    let value := match rest.dropWhile (· ≠ '=') with
      | [] => none
      | _ :: value => some (String.ofList value)
    if optionNames.any (·.2 == name) then some (name, value) else none
  | '-' :: letter :: rest =>
    let value := match rest with
      | [] => none
      | '=' :: value => some (String.ofList value)
      | value => some (String.ofList value)
    (optionNames.lookup letter).map fun name => (name, value)
  | _ => none

def isOption (argument : String) : Bool :=
  match argument.toList with
  | '-' :: _ :: _ => true
  | _ => false

-- Options and positional arguments in their order, or `none` for an unknown option or one without
-- its value. `pending` is an option that waits for its value.
def split : (pending : Option String) → List String → Option Arguments
  | none, [] => some {}
  | some _, [] => none
  | some name, value :: rest =>
    if isOption value then none else (split none rest).map (·.withOption name value)
  | none, argument :: rest =>
    if argument = "--" then some { positional := rest }
    else if isOption argument then
      match splitOption argument.toList with
      | some (name, some value) => (split none rest).map (·.withOption name value)
      | some (name, none) => split (some name) rest
      | none => none
    else (split none rest).map (·.withPositional argument)

def values (a : Arguments) (name : String) : List String :=
  (a.options.filter (·.1 == name)).map Prod.snd

-- An option that may be given once.
def atMostOnce (a : Arguments) (name : String) : Option (Option String) :=
  match a.values name with
  | [] => some none
  | [value] => some (some value)
  | _ => none

def givesOnly (a : Arguments) (names : List String) : Bool :=
  a.options.all fun o => o.1 ∈ names

end Arguments

def prices? (values : List String) : Option (List Float) :=
  (values.flatMap (·.splitOn ",")).mapM Decimal.parse?

def source? (events : Option String) (prices : List Float) : Option Source :=
  match events, prices with
  | none, prices => some (.prices prices)
  | some path, [] => some (.events path)
  | some _, _ :: _ => none

-- The request that arguments stand for, or `none` if they are used wrongly.
def Request.ofArguments? (arguments : List String) : Option Request := do
  let a ← Arguments.split none arguments
  let config ← a.atMostOnce "config"
  let symbol := (← a.atMostOnce "symbol").getD defaultSymbol
  match a.positional with
  | ["validate", graph] =>
    if a.givesOnly ["config"] then some ⟨config, .validate graph⟩ else none
  | ["compile", graph] =>
    if a.givesOnly ["config", "symbol"] then some ⟨config, .compile graph symbol⟩ else none
  | ["replay", graph] =>
    let source ← source? (← a.atMostOnce "events") (← prices? (a.values "prices"))
    let interval ← match ← a.atMostOnce "interval" with
      | none => some defaultInterval
      | some text => Decimal.parse? text
    some ⟨config, .replay graph symbol source interval⟩
  | _ => none

def usage : String :=
  "Usage: signalflow [--config FILE] COMMAND GRAPH\n\n"
    ++ "Commands:\n"
    ++ "  validate  Print every finding about a strategy graph\n"
    ++ "  compile   Print the order of execution (--symbol)\n"
    ++ "  replay    Run a graph over updates (--events or --prices, --interval, --symbol)"

end CommandLine

end SignalFlow
