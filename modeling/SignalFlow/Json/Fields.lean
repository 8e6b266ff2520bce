import SignalFlow.Json.Document

/-!
Reading typed data from documents. A record may be an object with its fields in any order, where
names it does not know are ignored, or a list of its fields in their declared order.
-/

namespace SignalFlow

namespace Document

def string? : Document → Option String
  | .str s => some s
  | _ => none

def bool? : Document → Option Bool
  | .bool b => some b
  | _ => none

-- Integers are accepted where a float is asked for.
def float? : Document → Option Float
  | .num n => some n.toFloat
  | _ => none

-- Floats are not accepted where an integer is asked for, not even whole ones.
def unsigned? : Document → Option Nat
  | .num n => n.unsigned?
  | _ => none

def list? {α : Type} (read : Document → Option α) : Document → Option (List α)
  | .arr items => items.mapM read
  | _ => none

-- Of members with one name the last counts, yet all of them have to be readable.
def dict? {α : Type} (read : Document → Option α) : Document → Option (Dict α)
  | .obj members =>
    (members.mapM fun (m : Option String × Document) => do
      let name ← m.1
      let a ← read m.2
      some (name, a)).map Dict.ofList
  | _ => none

def optional? {α : Type} (read : Document → Option α) : Document → Option (Option α)
  | .null => some none
  | d => (read d).map some

-- The name of an alternative without contents: plain text, or the name of a single `null`.
def name? : Document → Option String
  | .str s => some s
  | .obj [(some s, .null)] => some s
  | _ => none

-- The same in a document that was put aside before anybody knew how to read it. There an object
-- without members also stands for no contents.
def nameAside? : Document → Option String
  | .obj [(some s, .obj [])] => some s
  | d => d.name?

-- The fields that a record was given.
structure Fields where
  -- by name, and not by position
  named : Bool
  given : List (String × Document)

-- The members of an object that belong to a record, each of them once.
def knownMembers (known : List String) :
    List (Option String × Document) → Option (List (String × Document))
  | [] => some []
  | (name?, d) :: rest => do
    let name ← name?
    let others ← knownMembers known rest
    if name ∈ known then
      if (others.lookup name).isSome then none else some ((name, d) :: others)
    else some others

def fields? (known : List String) : Document → Option Fields
  | .obj members => (knownMembers known members).map (⟨true, ·⟩)
  | .arr items =>
    if items.length ≤ known.length then some ⟨false, known.zip items⟩ else none
  | _ => none

namespace Fields

variable {α : Type}

def get? (f : Fields) (name : String) : Option Document :=
  f.given.lookup name

def required (f : Fields) (name : String) (read : Document → Option α) : Option α :=
  (f.get? name).bind read

def withDefault (f : Fields) (name : String) (default : α) (read : Document → Option α) :
    Option α :=
  match f.get? name with
  | some d => read d
  | none => some default

-- A field that may be `null`. By name it may also be left out, by position it may not.
def nullable (f : Fields) (name : String) (read : Document → Option α) : Option (Option α) :=
  match f.get? name with
  | some d => optional? read d
  | none => if f.named then some none else none

end Fields

end Document

end SignalFlow
