import SignalFlow.Dict

/-!
A channel that every subscriber reads at its own pace. It keeps the newest events, as many as it has
room for; a subscriber that falls behind that loses the oldest ones and learns how many.
-/

namespace SignalFlow

structure Bus (α : Type) where
  capacity : Nat
  -- how many events were published while somebody listened
  published : Nat := 0
  -- the newest of them, oldest first
  kept : List α := []
  -- for every subscriber, how many events it has passed
  positions : Dict Nat := ∅

namespace Bus

variable {α : Type}

-- The capacity is rounded up to a power of two.
def new (capacity : Nat) : Bus α :=
  { capacity := (max 1 capacity).nextPowerOfTwo }

-- The last `count` of a list.
def newest (count : Nat) (l : List α) : List α :=
  l.drop (l.length - count)

def subscribers (b : Bus α) : Nat :=
  b.positions.size

-- A new subscriber sees what is published from now on.
def subscribe (b : Bus α) (name : String) : Bus α :=
  { b with positions := b.positions.insert name b.published }

def unsubscribe (b : Bus α) (name : String) : Bus α :=
  { b with positions := b.positions.erase name }

-- Without subscribers an event is lost.
def publish (b : Bus α) (event : α) : Bus α :=
  if b.positions.isEmpty then b
  else
    { b with
      published := b.published + 1
      kept := newest b.capacity (b.kept ++ [event]) }

-- What waits for a subscriber.
structure Waiting (α : Type) where
  lost : Nat := 0
  events : List α := []

def waiting (b : Bus α) (position : Nat) : Waiting α where
  lost := b.published - b.kept.length - position
  events := newest (b.published - position) b.kept

-- Takes everything that waits for a subscriber; nothing waits for strangers.
def receive (b : Bus α) (name : String) : Waiting α × Bus α :=
  match b.positions.get? name with
  | none => ({}, b)
  | some position =>
    (b.waiting position, { b with positions := b.positions.insert name b.published })

end Bus

end SignalFlow
