import SignalFlow.Dict

/-!
Structured values. A number is an integer of 64 bits, signed or unsigned, or a finite float; the two
stay apart, so a value that is only carried around is written as it came in.
-/

namespace SignalFlow

def leastInteger : Int := -0x8000000000000000

def greatestSigned : Int := 0x7FFFFFFFFFFFFFFF

def greatestUnsigned : Int := 0xFFFFFFFFFFFFFFFF

inductive Number where
  | int (value : Int) (inRange : leastInteger ≤ value ∧ value ≤ greatestUnsigned)
  | float (value : Float) (isFinite : value.isFinite = true)
deriving DecidableEq

namespace Number

def ofInt? (i : Int) : Option Number :=
  if h : leastInteger ≤ i ∧ i ≤ greatestUnsigned then some (.int i h) else none

def ofFloat? (x : Float) : Option Number :=
  if h : x.isFinite = true then some (.float x h) else none

def toFloat : Number → Float
  | .int i _ => Float.ofInt i
  | .float x _ => x

-- The value as a signed integer of 64 bits; a float never is one.
def signed? : Number → Option Int
  | .int i _ => if i ≤ greatestSigned then some i else none
  | .float _ _ => none

-- The value as an unsigned integer of 64 bits; a float never is one.
def unsigned? : Number → Option Nat
  | .int i _ => if 0 ≤ i then some i.toNat else none
  | .float _ _ => none

instance : BEq Number where
  beq
    | .int i _, .int j _ => i == j
    | .float x _, .float y _ => x == y
    | _, _ => false

end Number

-- The members of an object are in the order in which they are written.
inductive Json where
  | null
  | bool (b : Bool)
  | num (n : Number)
  | str (s : String)
  | arr (items : List Json)
  | obj (members : List (String × Json))
deriving BEq, Inhabited

namespace Json

-- A float that is not finite has no number; it is written as `null`.
def ofFloat (x : Float) : Json :=
  match Number.ofFloat? x with
  | some n => .num n
  | none => .null

-- An integer outside the 64-bit range has no number; it is written as `null`.
def ofInt (i : Int) : Json :=
  match Number.ofInt? i with
  | some n => .num n
  | none => .null

def ofNat (n : Nat) : Json :=
  ofInt n

def ofOption {α : Type} (f : α → Json) : Option α → Json
  | some a => f a
  | none => .null

def ofDict {α : Type} (f : α → Json) (d : Dict α) : Json :=
  .obj (d.entries.map fun e => (e.1, f e.2))

def float? : Json → Option Float
  | .num n => some n.toFloat
  | _ => none

def signed? : Json → Option Int
  | .num n => n.signed?
  | _ => none

def bool? : Json → Option Bool
  | .bool b => some b
  | _ => none

def string? : Json → Option String
  | .str s => some s
  | _ => none

def items? : Json → Option (List Json)
  | .arr items => some items
  | _ => none

def members? : Json → Option (List (String × Json))
  | .obj members => some members
  | _ => none

def isNull : Json → Bool
  | .null => true
  | _ => false

def isNumber : Json → Bool
  | .num _ => true
  | _ => false

def isString : Json → Bool
  | .str _ => true
  | _ => false

-- The member of that name; only an object has any.
def member? (j : Json) (name : String) : Option Json :=
  j.members?.bind (·.lookup name)

end Json

end SignalFlow
