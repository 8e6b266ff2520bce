import SignalFlow.Json.Fields
import SignalFlow.Json.Reader

/-!
Settings: limits and sizes, all of them unsigned integers of 64 bits. A file may set some of them,
and environment variables override what the file says.
-/

namespace SignalFlow

structure Config where
  -- milliseconds that one node may take in a tick, and one call to the state store
  nodeTimeout : Nat := 5000
  -- seconds for which stored state is kept
  stateTtl : Nat := 86400
  maxRecentErrors : Nat := 50
  maxSignalHistory : Nat := 1000
  eventCapacity : Nat := 1024
  maxNodes : Nat := 100
  maxEdgesPerNode : Nat := 10
deriving DecidableEq, Repr, Inhabited

inductive ConfigError where
  | unreadable (path reason : String)
  | malformed
  | invalidVariable (name value : String)
deriving DecidableEq, Repr

def ConfigError.message : ConfigError → String
  | .unreadable path reason => "Could not read config file '" ++ path ++ "': " ++ reason
  | .malformed => "Invalid config:"
  | .invalidVariable name value =>
    "Environment variable '" ++ name ++ "' has invalid value '" ++ value ++ "'"

namespace Config

-- The names of the settings, in their declared order.
def fieldNames : List String :=
  ["node_timeout_ms", "state_ttl_secs", "max_recent_errors", "max_signal_history",
   "event_channel_capacity", "max_nodes_warning", "max_edges_per_node_warning"]

def toJson (c : Config) : Json :=
  .obj [("node_timeout_ms", .ofNat c.nodeTimeout), ("state_ttl_secs", .ofNat c.stateTtl),
    ("max_recent_errors", .ofNat c.maxRecentErrors),
    ("max_signal_history", .ofNat c.maxSignalHistory),
    ("event_channel_capacity", .ofNat c.eventCapacity), ("max_nodes_warning", .ofNat c.maxNodes),
    ("max_edges_per_node_warning", .ofNat c.maxEdgesPerNode)]

def ofDocument? (d : Document) : Option Config := do
  let f ← d.fields? fieldNames
  let default : Config := {}
  some {
    nodeTimeout := ← f.withDefault "node_timeout_ms" default.nodeTimeout Document.unsigned?
    stateTtl := ← f.withDefault "state_ttl_secs" default.stateTtl Document.unsigned?
    maxRecentErrors :=
      ← f.withDefault "max_recent_errors" default.maxRecentErrors Document.unsigned?
    maxSignalHistory :=
      ← f.withDefault "max_signal_history" default.maxSignalHistory Document.unsigned?
    eventCapacity :=
      ← f.withDefault "event_channel_capacity" default.eventCapacity Document.unsigned?
    maxNodes := ← f.withDefault "max_nodes_warning" default.maxNodes Document.unsigned?
    maxEdgesPerNode :=
      ← f.withDefault "max_edges_per_node_warning" default.maxEdgesPerNode Document.unsigned? }

def parse? (text : String) : Except ConfigError Config :=
  match (Document.parse? text).bind ofDocument? with
  | some c => .ok c
  | none => .error .malformed

-- What a variable of the environment says: digits after an optional plus, within 64 bits.
def unsignedText? (s : String) : Option Nat :=
  let digits := match s.toList with
    | '+' :: rest => rest
    | cs => cs
  if digits.isEmpty || !digits.all Char.isDigit then none
  else
    let n : Nat := digits.foldl (fun n c => 10 * n + (c.toNat - '0'.toNat)) 0
    if (n : Int) ≤ greatestUnsigned then some n else none

def variablePrefix : String := "STRATEGY_GRAPH_"

-- The variables of the environment and the settings that they override.
def overrides : List (String × (Config → Nat → Config)) :=
  [("NODE_TIMEOUT_MS", fun c n => { c with nodeTimeout := n }),
   ("STATE_TTL_SECS", fun c n => { c with stateTtl := n }),
   ("MAX_RECENT_ERRORS", fun c n => { c with maxRecentErrors := n }),
   ("MAX_SIGNAL_HISTORY", fun c n => { c with maxSignalHistory := n }),
   ("EVENT_CHANNEL_CAPACITY", fun c n => { c with eventCapacity := n }),
   ("MAX_NODES_WARNING", fun c n => { c with maxNodes := n }),
   ("MAX_EDGES_PER_NODE_WARNING", fun c n => { c with maxEdgesPerNode := n })]

def variableNames : List String :=
  overrides.map fun v => variablePrefix ++ v.1

def override (env : String → Option String) (c : Config)
    (setting : String × (Config → Nat → Config)) : Except ConfigError Config :=
  let name := variablePrefix ++ setting.1
  match env name with
  | none => .ok c
  | some value =>
    match unsignedText? value with
    | some n => .ok (setting.2 c n)
    | none => .error (.invalidVariable name value)

-- The overrides apply in the order of the settings; the first bad one ends them.
def withEnvironment (c : Config) (env : String → Option String) : Except ConfigError Config :=
  overrides.foldlM (override env) c

end Config

end SignalFlow
