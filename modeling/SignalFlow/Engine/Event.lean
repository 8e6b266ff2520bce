import SignalFlow.Json.Reader
import SignalFlow.Market.Signal
import SignalFlow.Market.Tick
import SignalFlow.Time.Rfc3339

/-!
What an engine is told and what it tells: notices that fresh data exist for a symbol, and signals
with the session that emitted them. On the wire an event is its topic and its payload.
-/

namespace SignalFlow

-- Fresh data for a symbol. The names in `fields` are neither `symbol` nor `timestamp`.
structure IndicatorUpdate where
  symbol : String
  -- seconds since 1970
  timestamp : Option Float := none
  fields : Dict Json := ∅

namespace IndicatorUpdate

def ownNames : List String := ["symbol", "timestamp"]

-- The members that are not fields of the record itself, all of which need a value.
def extraMembers : List (Option String × Document) → Option (List (String × Json))
  | [] => some []
  | (name?, d) :: rest => do
    let name ← name?
    let others ← extraMembers rest
    if name ∈ ownNames then some others
    else do
      let j ← d.json?
      some ((name, j) :: others)

def ofDocument? : Document → Option IndicatorUpdate
  | .obj members => do
    let f ← (Document.obj members).fields? ownNames
    let extra ← extraMembers members
    some {
      symbol := ← f.required "symbol" Document.string?
      timestamp := ← f.nullable "timestamp" Document.float?
      fields := Dict.ofList extra }
  | _ => none

def toJson (u : IndicatorUpdate) : Json :=
  .obj (("symbol", .str u.symbol) :: ("timestamp", .ofOption .ofFloat u.timestamp)
    :: u.fields.entries)

-- The market as the update shows it; fields that are no numbers do not count.
def tick (u : IndicatorUpdate) : MarketTick :=
  .ofFields (u.fields.filterMap fun _ j => j.float?)

def snapshot (u : IndicatorUpdate) : Snapshot :=
  Dict.empty.insert u.symbol u.tick

end IndicatorUpdate

-- A signal as it leaves the engine, seen both by the strategy and by order management.
structure SignalNotice where
  session : String
  strategy : String
  symbol : String
  signalType : SignalType
  confidence : Float
  positionSize : Float
  riskLevel : String
  indicators : Dict Float
  timestamp : Instant
  side : Option Side
  quantity : Float
  price : Option Float
  id : String
  node : String
  message : Option String

namespace SignalNotice

def ofSignal (session strategy : String) (s : Signal) : SignalNotice where
  session := session
  strategy := strategy
  symbol := s.symbol
  signalType := s.signalType
  confidence := s.confidence
  positionSize := s.quantity
  riskLevel := s.riskLevel
  indicators := s.indicators
  timestamp := s.timestamp
  side := s.side
  quantity := s.quantity
  price := s.price
  id := s.id
  node := s.node
  message := s.message

def fieldNames : List String :=
  ["session_id", "strategy_name", "symbol", "signal_type", "confidence", "position_size",
   "risk_level", "indicators", "timestamp", "side", "quantity", "price", "signal_id", "node_id",
   "message"]

def instant? (d : Document) : Option Instant :=
  d.string?.bind Rfc3339.read?

-- Reads a notice, with a reader for the names of its alternatives.
def ofDocument? (alternative : Document → Option String) (d : Document) :
    Option SignalNotice := do
  let f ← d.fields? fieldNames
  some {
    session := ← f.required "session_id" Document.string?
    strategy := ← f.required "strategy_name" Document.string?
    symbol := ← f.required "symbol" Document.string?
    signalType := ← f.required "signal_type" fun d =>
      (alternative d).bind SignalType.ofName?
    confidence := ← f.required "confidence" Document.float?
    positionSize := ← f.required "position_size" Document.float?
    riskLevel := ← f.required "risk_level" Document.string?
    indicators := ← f.required "indicators" (Document.dict? Document.float?)
    timestamp := ← f.required "timestamp" instant?
    side := ← f.nullable "side" fun d => (alternative d).bind Side.ofName?
    quantity := ← f.required "quantity" Document.float?
    price := ← f.nullable "price" Document.float?
    id := ← f.required "signal_id" Document.string?
    node := ← f.required "node_id" Document.string?
    message := ← f.nullable "message" Document.string? }

def toJson (n : SignalNotice) : Json :=
  .obj [("session_id", .str n.session), ("strategy_name", .str n.strategy),
    ("symbol", .str n.symbol), ("signal_type", .str n.signalType.name),
    ("confidence", .ofFloat n.confidence), ("position_size", .ofFloat n.positionSize),
    ("risk_level", .str n.riskLevel), ("indicators", .ofDict .ofFloat n.indicators),
    ("timestamp", .str (Rfc3339.write n.timestamp)),
    ("side", .ofOption (fun s => .str s.name) n.side), ("quantity", .ofFloat n.quantity),
    ("price", .ofOption .ofFloat n.price), ("signal_id", .str n.id), ("node_id", .str n.node),
    ("message", .ofOption .str n.message)]

end SignalNotice

inductive Event where
  | indicatorUpdated (update : IndicatorUpdate)
  | signalGenerated (notice : SignalNotice)

namespace Event

def indicatorTopic : String := "indicator.updated"

def signalTopic : String := "signal.generated"

def topic : Event → String
  | .indicatorUpdated _ => indicatorTopic
  | .signalGenerated _ => signalTopic

def toJson : Event → Json
  | .indicatorUpdated u => .obj [("topic", .str indicatorTopic), ("payload", u.toJson)]
  | .signalGenerated n => .obj [("topic", .str signalTopic), ("payload", n.toJson)]

def ofParts? (alternative : Document → Option String) (topic payload : Document) :
    Option Event := do
  let name ← topic.name?
  if name = indicatorTopic then (IndicatorUpdate.ofDocument? payload).map .indicatorUpdated
  else if name = signalTopic then
    (SignalNotice.ofDocument? alternative payload).map .signalGenerated
  else none

-- An event is an object with both parts, in any order and with whatever else, or a list of both. A
-- payload that comes before its topic is put aside: every part of it needs a value then, and names
-- are read as in any document that was put aside.
def ofDocument? (d : Document) : Option Event := do
  let f ← d.fields? ["topic", "payload"]
  match f.given with
  | [("topic", topic), ("payload", payload)] => ofParts? Document.name? topic payload
  | [("payload", payload), ("topic", topic)] => do
    let _ ← payload.json?
    ofParts? Document.nameAside? topic payload
  | _ => none

def ofJson? (j : Json) : Option Event :=
  ofDocument? (.ofJson j)

def parse? (text : String) : Option Event :=
  (Document.parse? text).bind ofDocument?

end Event

end SignalFlow
