import SignalFlow.Dict
import SignalFlow.Temporal.Blob

/-!
Where the states of machines are kept between runs. An entry lives until its deadline and is removed
when it is read after that. A link is a store as its users see it: a call may find the store down or
too slow, and then it does nothing.
-/

namespace SignalFlow

-- What a stored state belongs to.
structure StateKey where
  strategy : String
  symbol : String
  node : String
deriving DecidableEq, Repr

def StateKey.text (k : StateKey) : String :=
  "strategy_state:" ++ k.strategy ++ ":" ++ k.symbol ++ ":" ++ k.node

structure StateStore where
  -- the stored bytes and their deadlines, by the texts of their keys
  entries : Dict (Blob × Int)
deriving Inhabited

namespace StateStore

def empty : StateStore := ⟨∅⟩

-- Times are counted in seconds, within 64 bits with a sign.
def latestTime : Int := 0x7FFFFFFFFFFFFFFF

def deadline? (now : Int) (ttl : Nat) : Option Int :=
  if now + ttl ≤ latestTime then some (now + ttl) else none

-- The store with the entry, or `none` if its deadline cannot be counted.
def put? (s : StateStore) (now : Int) (key : StateKey) (blob : Blob) (ttl : Nat) :
    Option StateStore :=
  (deadline? now ttl).map fun deadline => ⟨s.entries.insert key.text (blob, deadline)⟩

-- The bytes under a key, and the store without them if their deadline has passed.
def get (s : StateStore) (now : Int) (key : StateKey) : Option Blob × StateStore :=
  match s.entries.get? key.text with
  | none => (none, s)
  | some (blob, deadline) =>
    if now < deadline then (some blob, s) else (none, ⟨s.entries.erase key.text⟩)

end StateStore

-- How the store answers a call.
inductive StoreCondition where
  | up
  | down
  | slow
deriving DecidableEq, Repr

structure StoreLink where
  store : StateStore
  -- the clock of the store
  now : Int := 0
  -- the condition in which each call finds the store
  condition : Nat → StoreCondition := fun _ => .up
  calls : Nat := 0
  -- how many of the calls were writes, in vain or not
  writes : Nat := 0

namespace StoreLink

-- A read that fails finds nothing.
def read (l : StoreLink) (key : StateKey) : Option Blob × StoreLink :=
  match l.condition l.calls with
  | .up =>
    let found := l.store.get l.now key
    (found.1, { l with store := found.2, calls := l.calls + 1 })
  | _ => (none, { l with calls := l.calls + 1 })

-- The link after a write, and whether the write came to an end. A write that fails does, and
-- changes nothing; one whose deadline cannot be counted does not, though it counts as a write.
def write (l : StoreLink) (key : StateKey) (blob : Blob) (ttl : Nat) : Bool × StoreLink :=
  let called := { l with calls := l.calls + 1, writes := l.writes + 1 }
  match l.condition l.calls with
  | .up =>
    match l.store.put? l.now key blob ttl with
    | some store => (true, { called with store })
    | none => (false, called)
  | _ => (true, called)

end StoreLink

end SignalFlow
