import SignalFlow.Engine.Event
import SignalFlow.Execution.Tick

/-!
Replays: a plan run over recorded updates, under a clock that follows the times on the updates.
-/

namespace SignalFlow

structure Replay where
  plan : Plan
  clock : Instant
  -- how many updates have been replayed
  ticks : Nat := 0
  failures : List (String × NodeError) := []
  signals : List Signal := []

namespace Replay

-- Whole milliseconds, the nearest that 64 bits can hold.
def millis (seconds : Float) : Int :=
  (Binary.ofFloat (seconds * 1000)).clamp leastInteger greatestSigned

-- The clock for the next update: the time on the update, if it has one that is in range. Otherwise
-- the clock moves on by the interval, except for the first update.
def nextClock (r : Replay) (interval : Float) (u : IndicatorUpdate) : Instant :=
  match u.timestamp.bind fun t => Instant.ofMillis? (millis t) with
  | some t => t
  | none =>
    if r.ticks = 0 then r.clock
    else (r.clock.advance? (millis interval * 1000000)).getD r.clock

def step (config : Config) (interval : Float) (r : Replay) (u : IndicatorUpdate) : Replay :=
  let clock := r.nextClock interval u
  let ticked := r.plan.execute config {} clock u.snapshot
  let later := { r with plan := ticked.plan, clock, ticks := r.ticks + 1 }
  match ticked.outcome with
  | none => later
  | some o =>
    { later with failures := r.failures ++ o.failures, signals := r.signals ++ o.signals }

-- Replays the updates for the symbol of the plan.
def run (plan : Plan) (config : Config) (now : Instant) (interval : Float)
    (updates : List IndicatorUpdate) : Replay :=
  (updates.filter (·.symbol == plan.symbol)).foldl (step config interval) { plan, clock := now }

-- Updates that carry one price each, the first of them at the current second.
def ofPrices (symbol : String) (now : Instant) (interval : Float) (prices : List Float) :
    List IndicatorUpdate :=
  prices.zipIdx.map fun (price, i) =>
    { symbol
      timestamp := some (Float.ofInt now.seconds + Float.ofNat i * interval)
      fields := Dict.empty.insert "price" (.ofFloat price) }

-- Recorded updates are a list.
def updates? (text : String) : Option (List IndicatorUpdate) :=
  (Document.parse? text).bind (Document.list? IndicatorUpdate.ofDocument?)

end Replay

end SignalFlow
