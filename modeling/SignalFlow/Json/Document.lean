import SignalFlow.Json.Basic

/-!
What a text in structured notation says before anybody asks for a meaning: members in the order of
the text with their repetitions, and a mark where the notation is fine but stands for no value.
Readers of typed data look at documents; what they ignore need not have a value.
-/

namespace SignalFlow

inductive Document where
  | null
  | bool (b : Bool)
  | num (n : Number)
  | str (s : String)
  | arr (items : List Document)
  -- a name is `none` if it holds half a surrogate pair
  | obj (members : List (Option String × Document))
  -- nested too deep, a number out of range, or text with half a surrogate pair
  | unusable
deriving Inhabited

namespace Document

mutual

def ofJson : Json → Document
  | .null => .null
  | .bool b => .bool b
  | .num n => .num n
  | .str s => .str s
  | .arr items => .arr (ofItems items)
  | .obj members => .obj (ofMembers members)

def ofItems : List Json → List Document
  | [] => []
  | j :: rest => ofJson j :: ofItems rest

def ofMembers : List (String × Json) → List (Option String × Document)
  | [] => []
  | (name, j) :: rest => (some name, ofJson j) :: ofMembers rest

end

mutual

-- The value of a document, if every part of it has one. Of members with one name the last counts,
-- and the members are put in order.
def json? : Document → Option Json
  | .null => some .null
  | .bool b => some (.bool b)
  | .num n => some (.num n)
  | .str s => some (.str s)
  | .arr items => (items? items).map .arr
  | .obj members => (members? members).map fun list => .obj (Dict.ofList list).entries
  | .unusable => none

def items? : List Document → Option (List Json)
  | [] => some []
  | d :: rest => do
    let j ← d.json?
    let js ← items? rest
    some (j :: js)

def members? : List (Option String × Document) → Option (List (String × Json))
  | [] => some []
  | (name?, d) :: rest => do
    let name ← name?
    let j ← d.json?
    let js ← members? rest
    some ((name, j) :: js)

end

end Document

end SignalFlow
