import SignalFlow.Decimal.Binary
import SignalFlow.Graph.Basic
import SignalFlow.Temporal.Hold
import SignalFlow.Temporal.Sequence
import SignalFlow.Temporal.Stamp

/-!
The machines behind conditions that depend on the past, and the rules that nodes set for them.
-/

namespace SignalFlow

inductive MachineKind where
  | duration
  | sequence
deriving DecidableEq, Repr

inductive Machine where
  | duration (state : Hold.State Stamp)
  | sequence (state : Sequence.State Stamp)
deriving DecidableEq

namespace Machine

def zero : MachineKind → Machine
  | .duration => .duration .zero
  | .sequence => .sequence .zero

def kind : Machine → MachineKind
  | .duration _ => .duration
  | .sequence _ => .sequence

end Machine

def Hold.Rule.ofNode (n : Node) : Hold.Rule Stamp where
  duration := .ofFloat ((n.float? "duration_seconds").getD 60)
  resetOnFalse := (n.bool? "reset_on_false").getD true

-- A float as a count: its whole part, at least one and no more than a given bound.
def countOf (greatest : Int) (x : Float) : Nat :=
  max 1 ((Binary.ofFloat x).clamp 0 greatest).toNat

def Sequence.Rule.ofNode (n : Node) : Sequence.Rule Stamp where
  required := ((n.float? "required_events").map (countOf greatestUnsigned)).getD 3
  maxGap := .ofFloat ((n.float? "max_gap_seconds").getD 300)

namespace Machine

-- One observation, under the rule that the node sets for a machine of this kind.
def advance (m : Machine) (n : Node) (input : Bool) (now : Stamp) : Machine × Bool :=
  match m with
  | .duration s =>
    let r := s.update (.ofNode n) input now
    (.duration r.1, r.2)
  | .sequence s =>
    let r := s.update (.ofNode n) input now
    (.sequence r.1, r.2)

def sameTime : Option Stamp → Option Stamp → Bool
  | none, none => true
  | some a, some b => a.same b
  | _, _ => false

def sameTimes : List Stamp → List Stamp → Bool
  | [], [] => true
  | a :: as, b :: bs => a.same b && sameTimes as bs
  | _, _ => false

-- Whether two states are equal number by number; only a state that is not is written back.
def same : Machine → Machine → Bool
  | .duration s, .duration t =>
    s.active == t.active && sameTime s.startTime t.startTime && s.elapsed.same t.elapsed
  | .sequence s, .sequence t =>
    sameTimes s.events t.events && sameTime s.lastTrigger t.lastTrigger
  | _, _ => false

end Machine

end SignalFlow
