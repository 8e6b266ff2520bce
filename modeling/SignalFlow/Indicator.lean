import SignalFlow.Dict
import SignalFlow.Json.Basic

/-!
Indicators are computed elsewhere. A feed knows which series are wanted and holds the latest value
of each; a series is named by its symbol, its kind and its period.
-/

namespace SignalFlow

structure IndicatorKey where
  text : String
deriving DecidableEq, Repr

def IndicatorKey.of (symbol kind : String) (period : Nat) : IndicatorKey :=
  ⟨symbol ++ ":" ++ kind ++ ":" ++ toString period⟩

-- What a node finds when it asks for the value of a series.
inductive Reading where
  | ready (x : Float)
  -- the feed has no value yet
  | warmingUp
  -- the feed takes longer than a node may wait
  | late
  -- there is no feed
  | absent
deriving DecidableEq

-- What stands in for a value where there is no feed.
def mockValue (kind : String) : Float :=
  if kind = "rsi" then 50
  else if kind = "atr" then 1
  else if kind = "sma" ∨ kind = "ema" then 100
  else 0

structure IndicatorFeed where
  values : Dict Float := ∅
  -- what was asked for, in order, with what came along
  registrations : List (IndicatorKey × Json) := []
  -- milliseconds that a reading takes
  delay : Nat := 0
deriving Inhabited

namespace IndicatorFeed

def register (f : IndicatorFeed) (key : IndicatorKey) (extra : Json) : IndicatorFeed :=
  { f with registrations := f.registrations ++ [(key, extra)] }

def isRegistered (f : IndicatorFeed) (key : IndicatorKey) : Bool :=
  f.registrations.any (·.1 = key)

def set (f : IndicatorFeed) (key : IndicatorKey) (x : Float) : IndicatorFeed :=
  { f with values := f.values.insert key.text x }

def clear (f : IndicatorFeed) (key : IndicatorKey) : IndicatorFeed :=
  { f with values := f.values.erase key.text }

def get? (f : IndicatorFeed) (key : IndicatorKey) : Option Float :=
  f.values.get? key.text

-- The reading for a node that may wait for `timeout` milliseconds.
def read (f : IndicatorFeed) (timeout : Nat) (key : IndicatorKey) : Reading :=
  if timeout < f.delay then .late
  else (f.get? key).elim .warmingUp .ready

end IndicatorFeed

-- The reading through a feed that may be missing.
def readIndicator (feed : Option IndicatorFeed) (timeout : Nat) (key : IndicatorKey) : Reading :=
  feed.elim .absent fun f => f.read timeout key

end SignalFlow
