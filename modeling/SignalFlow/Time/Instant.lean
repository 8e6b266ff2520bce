import SignalFlow.Time.Calendar

/-!
Points in time: whole seconds since 1970 and nanoseconds. During a leap second the nanoseconds run
on to two thousand million.
-/

namespace SignalFlow

structure Instant where
  seconds : Int
  nanos : Nat
deriving DecidableEq, Repr, Inhabited

namespace Instant

-- The start of the year -262143.
def earliestSecond : Int := -8334601228800

-- The last second of the year 262142.
def latestSecond : Int := 8210266876799

def InRange (seconds : Int) : Prop :=
  earliestSecond ≤ seconds ∧ seconds ≤ latestSecond

instance (seconds : Int) : Decidable (InRange seconds) :=
  inferInstanceAs (Decidable (_ ∧ _))

def epoch : Instant := ⟨0, 0⟩

def nanosPerSecond : Int := 1000000000

def ofSeconds? (seconds : Int) : Option Instant :=
  if InRange seconds then some ⟨seconds, 0⟩ else none

def ofMillis? (millis : Int) : Option Instant :=
  if InRange (millis / 1000) then
    some ⟨millis / 1000, (millis % 1000).toNat * 1000000⟩
  else none

-- The instant moved by nanoseconds, which may be negative.
def advance? (t : Instant) (nanos : Int) : Option Instant :=
  let total := (t.nanos : Int) + nanos
  let seconds := t.seconds + total / nanosPerSecond
  if InRange seconds then some ⟨seconds, (total % nanosPerSecond).toNat⟩ else none

-- Seconds since 1970 with microseconds as their fraction.
def toFloat (t : Instant) : Float :=
  Float.ofInt t.seconds + Float.ofNat (t.nanos / 1000) / 1000000

end Instant

end SignalFlow
