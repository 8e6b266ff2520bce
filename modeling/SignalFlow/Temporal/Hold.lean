/-!
How long a condition has held. The machine sees one observation at a time, each with the time at
which it was made; times are numbers of any kind with a difference and an order.
-/

namespace SignalFlow

namespace Hold

structure State (α : Type) where
  active : Bool
  startTime : Option α
  elapsed : α
deriving DecidableEq, Repr

structure Rule (α : Type) where
  duration : α
  resetOnFalse : Bool
deriving DecidableEq, Repr

variable {α : Type} [OfNat α 0] [Sub α] [LT α] [LE α] [DecidableLT α] [DecidableLE α]

def State.zero : State α := ⟨false, none, 0⟩

-- The time from one observation to another, never negative.
def span (start now : α) : α :=
  if 0 < now - start then now - start else 0

-- The state after an observation. A false one ends the hold, or only pauses it; a true one goes on
-- with a hold, or starts one as if it had begun before by the time that was already held.
def State.observe (s : State α) (rule : Rule α) (input : Bool) (now : α) : State α :=
  match input, s.active, s.startTime with
  | false, _, _ =>
    if rule.resetOnFalse then .zero else { s with active := false, startTime := none }
  | true, true, some start => { s with elapsed := span start now }
  | true, _, _ => { s with active := true, startTime := some (now - s.elapsed) }

-- Whether the condition has held for long enough.
def State.fires (s : State α) (rule : Rule α) (input : Bool) : Bool :=
  input && rule.duration ≤ s.elapsed

-- The state after an observation, and whether the condition has held for long enough then.
def State.update (s : State α) (rule : Rule α) (input : Bool) (now : α) : State α × Bool :=
  let after := s.observe rule input now
  (after, after.fires rule input)

end Hold

end SignalFlow
