/-!
Events that follow one another closely enough. Enough of them in a row complete a sequence, and the
count starts over.
-/

namespace SignalFlow

namespace Sequence

structure State (α : Type) where
  -- the times of the events counted so far, oldest first
  events : List α
  lastTrigger : Option α
deriving DecidableEq, Repr

structure Rule (α : Type) where
  required : Nat
  maxGap : α
deriving DecidableEq, Repr

variable {α : Type} [Sub α] [LT α] [DecidableLT α]

def State.zero : State α := ⟨[], none⟩

-- The events that still count now; a gap that is too long discards all of them.
def State.current (s : State α) (rule : Rule α) (now : α) : List α :=
  match s.events.getLast? with
  | none => s.events
  | some last => if rule.maxGap < now - last then [] else s.events

-- The state after an observation, and whether the observation completes a sequence.
def State.update (s : State α) (rule : Rule α) (input : Bool) (now : α) : State α × Bool :=
  let events := s.current rule now
  if input then
    if rule.required ≤ events.length + 1 then (⟨[], some now⟩, true)
    else (⟨events ++ [now], s.lastTrigger⟩, false)
  else (⟨events, s.lastTrigger⟩, false)

end Sequence

end SignalFlow
